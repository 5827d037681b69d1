import Formula.Proofs.Rereading

/-! What a text shows, its bytes without blanks and each number by its value: a strictly read text
shows exactly the source of its tree (`parse_visible`). -/

namespace Formula

namespace Ascii

/-- The bytes of a text with the leading zeros of its numbers dropped. A number may start where
`fresh` holds, after a byte that is no name byte; a zero there goes when a digit follows it. -/
def unpad : Bool → List UInt8 → List UInt8
  | _, [] => []
  | fresh, b :: bs =>
    if fresh && b == 48 && bs.head?.any isDigit then unpad true bs
    else b :: unpad (!isNameByte b) bs

/-- The bytes of a list but the blanks. -/
def unblank (bs : List UInt8) : List UInt8 := bs.filter fun b => !isBlank b

/-- What a text shows: its bytes but the blanks, each number without leading zeros. -/
def visible (bs : List UInt8) : List UInt8 := unblank (unpad true bs)

example : visible "x007 + 007 + 0".toUTF8.data.toList = "x007+7+0".toUTF8.data.toList := by
  decide

/-- The value of a list of decimal digits. -/
def digitsOf (bs : List UInt8) : Nat := bs.foldl (fun v b => 10 * v + (b.toNat - 48)) 0

@[simp] theorem unblank_nil : unblank [] = [] := rfl

@[simp] theorem unblank_append (s t : List UInt8) : unblank (s ++ t) = unblank s ++ unblank t :=
  List.filter_append ..

@[simp] theorem unblank_cons (b : UInt8) (bs : List UInt8) :
    unblank (b :: bs) = if isBlank b then unblank bs else b :: unblank bs := by
  cases h : isBlank b <;> simp [unblank, h]

theorem unblank_eq_self {s : List UInt8} (h : ∀ b ∈ s, isBlank b = false) : unblank s = s :=
  List.filter_eq_self.mpr fun b hb => by simp [h b hb]

theorem unpad_cons_of_ne {b : UInt8} (f : Bool) (hb : b ≠ 48) (bs : List UInt8) :
    unpad f (b :: bs) = b :: unpad (!isNameByte b) bs := by
  rw [unpad, if_neg (by simp [hb])]

/-- Where no zero comes first, whether a number may start makes no difference. -/
theorem unpad_of_head_ne {bs : List UInt8} (f : Bool) (h : ∀ b ∈ bs.head?, b ≠ 48) :
    unpad f bs = unpad true bs := by
  cases bs with
  | nil => rfl
  | cons b bs => rw [unpad_cons_of_ne _ (h b rfl), unpad_cons_of_ne _ (h b rfl)]

theorem isNameByte_of_isBlank {b : UInt8} (h : isBlank b = true) : isNameByte b = false := by
  simp only [isBlank, Bool.or_eq_true, beq_iff_eq] at h
  rcases h with ((rfl | rfl) | rfl) | rfl <;> rfl

theorem isBlank_of_isNameByte {b : UInt8} (h : isNameByte b = true) : isBlank b = false := by
  cases hb : isBlank b
  · rfl
  · rw [isNameByte_of_isBlank hb] at h
    exact absurd h (by decide)

theorem isDigit_eq_false {b : UInt8} (h : isNameByte b = false) : isDigit b = false := by
  cases hd : isDigit b
  · rfl
  · rw [isNameByte_of_isDigit hd] at h
    exact absurd h (by decide)

theorem ne_zero_of_isNameByte {b : UInt8} (h : isNameByte b = false) : b ≠ 48 := by
  rintro rfl
  exact absurd h (by decide)

theorem ne_zero_of_isDigit {b : UInt8} (h : isDigit b = false) : b ≠ 48 := by
  rintro rfl
  exact absurd h (by decide)

/-- Inside a word, after its first byte, every byte stays. -/
theorem unpad_word {w rest : List UInt8} (hw : ∀ b ∈ w, isNameByte b = true)
    (hr : ∀ b ∈ rest.head?, isDigit b = false) : unpad false (w ++ rest) = w ++ unpad true rest := by
  induction w with
  | nil => exact unpad_of_head_ne false fun b hb => ne_zero_of_isDigit (hr b hb)
  | cons a w ih =>
    rw [List.cons_append, unpad, if_neg (by simp), hw a List.mem_cons_self]
    simp only [Bool.not_true, List.cons_append]
    rw [ih fun b hb => hw b (List.mem_cons_of_mem _ hb)]

theorem visible_nil : visible [] = [] := rfl

theorem visible_blank {b : UInt8} (hb : isBlank b = true) (bs : List UInt8) :
    visible (b :: bs) = visible bs := by
  have hn := isNameByte_of_isBlank hb
  rw [visible, unpad_cons_of_ne _ (ne_zero_of_isNameByte hn), hn]
  simp [visible, hb]

/-- Blanks show nothing. -/
theorem visible_dropWhile_blank (bs : List UInt8) : visible (bs.dropWhile isBlank) = visible bs := by
  induction bs with
  | nil => rfl
  | cons b bs ih =>
    by_cases hb : isBlank b = true
    · rw [List.dropWhile_cons_of_pos hb, ih, visible_blank hb]
    · rw [List.dropWhile_cons_of_neg hb]

/-- Bytes that are neither blanks nor name bytes show as they are. -/
theorem visible_symbols {s : List UInt8} (hs : ∀ b ∈ s, isNameByte b = false ∧ isBlank b = false)
    (bs : List UInt8) : visible (s ++ bs) = s ++ visible bs := by
  induction s with
  | nil => rfl
  | cons a s ih =>
    obtain ⟨hn, hb⟩ := hs a List.mem_cons_self
    have hrest := ih fun b hb => hs b (List.mem_cons_of_mem _ hb)
    unfold visible at hrest ⊢
    rw [List.cons_append, unpad_cons_of_ne _ (ne_zero_of_isNameByte hn), hn, Bool.not_false,
      unblank_cons, if_neg (by simp [hb]), hrest]
    rfl

/-- A name, a letter then name bytes, shows as it is when no name byte follows it. -/
theorem visible_name {w rest : List UInt8} (hl : ∀ b ∈ w.head?, isLetter b = true)
    (hw : ∀ b ∈ w, isNameByte b = true) (hr : ∀ b ∈ rest.head?, isNameByte b = false) :
    visible (w ++ rest) = w ++ visible rest := by
  cases w with
  | nil => rfl
  | cons a w =>
    have ha : a ≠ 48 := by
      rintro rfl
      exact absurd (hl 48 rfl) (by decide)
    rw [visible, List.cons_append, unpad_cons_of_ne _ ha, hw a List.mem_cons_self, Bool.not_true,
      unpad_word (fun b hb => hw b (List.mem_cons_of_mem _ hb))
      fun b hb => isDigit_eq_false (hr b hb), ← List.cons_append, unblank_append,
      unblank_eq_self fun b hb => isBlank_of_isNameByte (hw b hb)]
    rfl

theorem digitChar_toNat : ∀ k < 10, (Nat.digitChar k).toNat = 48 + k := by decide

theorem digitChar_byte {y : UInt8} (hy : isDigit y = true) :
    (Nat.digitChar (y.toNat - 48)).toNat.toUInt8 = y := by
  simp only [isDigit, Bool.and_eq_true, decide_eq_true_eq, UInt8.le_iff_toNat_le] at hy
  have h48 : (48 : UInt8).toNat = 48 := rfl
  have h57 : (57 : UInt8).toNat = 57 := rfl
  rw [digitChar_toNat _ (by omega), Nat.add_sub_cancel' (by omega)]
  exact UInt8.ofNat_toNat

theorem le_digitsOf_cons (x : UInt8) (d : List UInt8) : x.toNat - 48 ≤ digitsOf (x :: d) := by
  suffices ∀ v, v ≤ d.foldl (fun v b => 10 * v + (b.toNat - 48)) v by
    simpa [digitsOf] using this (x.toNat - 48)
  induction d with
  | nil => simp
  | cons b d ih => exact fun v => Nat.le_trans (show v ≤ 10 * v + (b.toNat - 48) by omega) (ih _)

/-- Digits without a leading zero are the decimal numeral of their value. -/
theorem decimal_digitsOf {ds : List UInt8} (hne : ds ≠ []) (hd : ∀ b ∈ ds, isDigit b = true)
    (h0 : ∀ b ∈ ds.head?, b ≠ 48) : (natDecimal (digitsOf ds)).toUTF8.data.toList = ds := by
  rw [natDecimal_bytes]
  induction ds using List.reverseRecOn with
  | nil => exact absurd rfl hne
  | append_singleton ds y ih =>
    have hy := hd y (by simp)
    have hk : y.toNat - 48 < 10 := by
      simp only [isDigit, Bool.and_eq_true, decide_eq_true_eq, UInt8.le_iff_toNat_le] at hy
      have h57 : (57 : UInt8).toNat = 57 := rfl
      omega
    have hval : digitsOf (ds ++ [y]) = 10 * digitsOf ds + (y.toNat - 48) := by
      simp [digitsOf, List.foldl_append]
    rw [hval]
    cases ds with
    | nil => simp [digitsOf, Nat.toDigits_of_lt_base hk, digitChar_byte hy]
    | cons x ds =>
      -- the digits before the last have a positive value, so the last digit is one more place
      have hx : x.toNat - 48 ≠ 0 := by
        have hx0 := h0 x rfl
        have hxd := hd x List.mem_cons_self
        simp only [isDigit, Bool.and_eq_true, decide_eq_true_eq, UInt8.le_iff_toNat_le] at hxd
        have h48 : (48 : UInt8).toNat = 48 := rfl
        have : x.toNat ≠ 48 := fun h => hx0 (UInt8.toNat_inj.mp h)
        omega
      have hpos : 0 < digitsOf (x :: ds) := Nat.lt_of_lt_of_le (Nat.pos_of_ne_zero hx)
        (le_digitsOf_cons x ds)
      rw [← Nat.toDigits_append_toDigits (by decide) hpos hk, List.map_append,
        ih (List.cons_ne_nil _ _) (fun b hb => hd b (List.mem_append_left _ hb)) h0,
        Nat.toDigits_of_lt_base hk]
      simp [digitChar_byte hy]

/-- A number shows as the decimal numeral of its value when no digit follows it. -/
theorem unpad_number {ds rest : List UInt8} (hne : ds ≠ []) (hd : ∀ b ∈ ds, isDigit b = true)
    (hr : ∀ b ∈ rest.head?, isDigit b = false) :
    unpad true (ds ++ rest) = (natDecimal (digitsOf ds)).toUTF8.data.toList ++ unpad true rest := by
  induction ds with
  | nil => exact absurd rfl hne
  | cons x ds ih =>
    have hds : ∀ b ∈ ds, isDigit b = true := fun b hb => hd b (List.mem_cons_of_mem _ hb)
    have hword : ∀ b ∈ ds, isNameByte b = true := fun b hb => isNameByte_of_isDigit (hds b hb)
    by_cases hx : x = 48
    · subst hx
      cases ds with
      | nil =>
        -- a lone zero stays
        have hany : rest.head?.any isDigit = false := by
          cases h : rest.head? with
          | none => rfl
          | some b => exact hr b h
        rw [List.cons_append, List.nil_append, unpad, if_neg (by simp [hany])]
        have hz : digitsOf [48] = 0 := rfl
        rw [hz, unpad_of_head_ne _ fun b hb => ne_zero_of_isDigit (hr b hb)]
        rfl
      | cons y ds =>
        -- a zero before a digit goes, and leaves the value as it was
        have hy := hds y List.mem_cons_self
        rw [List.cons_append, unpad, if_pos (by simp [hy])]
        have hv : digitsOf (48 :: y :: ds) = digitsOf (y :: ds) := by simp [digitsOf]
        rw [hv, ih (List.cons_ne_nil _ _) hds]
    · rw [List.cons_append, unpad_cons_of_ne _ hx, isNameByte_of_isDigit (hd x List.mem_cons_self),
        Bool.not_true, unpad_word hword hr, decimal_digitsOf (List.cons_ne_nil _ _) hd (by simpa using hx)]
      rfl

theorem unblank_decimal (n : Nat) :
    unblank (natDecimal n).toUTF8.data.toList = (natDecimal n).toUTF8.data.toList :=
  unblank_eq_self fun _ hb => isBlank_of_isNameByte (isNameByte_of_isDigit (isDigit_of_mem_decimal hb))

theorem visible_number {ds rest : List UInt8} (hne : ds ≠ []) (hd : ∀ b ∈ ds, isDigit b = true)
    (hr : ∀ b ∈ rest.head?, isDigit b = false) :
    visible (ds ++ rest) = (natDecimal (digitsOf ds)).toUTF8.data.toList ++ visible rest := by
  rw [visible, unpad_number hne hd hr, unblank_append, unblank_decimal]
  rfl

theorem head_dropWhile {p : UInt8 → Bool} (l : List UInt8) : ∀ b ∈ (l.dropWhile p).head?, p b = false := by
  intro b hb
  have h := List.head?_dropWhile_not p l
  rw [Option.mem_def.mp hb] at h
  exact h

end Ascii

theorem BinaryOp.spelling_symbols (op : BinaryOp) :
    ∀ b ∈ op.spelling.toUTF8.data.toList, Ascii.isNameByte b = false ∧ Ascii.isBlank b = false := by
  rw [String.toUTF8_eq_toByteArray, BinaryOp.spelling_bytes]
  cases op <;> simp [Ascii.isNameByte, Ascii.isAlnum, Ascii.isLetter, Ascii.isDigit, Ascii.isBlank]

theorem UnaryOp.spelling_symbols (op : UnaryOp) :
    ∀ b ∈ op.spelling.toUTF8.data.toList, Ascii.isNameByte b = false ∧ Ascii.isBlank b = false := by
  rw [String.toUTF8_eq_toByteArray, UnaryOp.spelling_bytes]
  cases op <;> simp [Ascii.isNameByte, Ascii.isAlnum, Ascii.isLetter, Ascii.isDigit, Ascii.isBlank]

@[simp] theorem BinaryOp.unblank_spelling (op : BinaryOp) :
    Ascii.unblank op.spelling.toByteArray.data.toList = op.spelling.toByteArray.data.toList :=
  Ascii.unblank_eq_self fun b hb => (op.spelling_symbols b hb).2

@[simp] theorem UnaryOp.unblank_spelling (op : UnaryOp) :
    Ascii.unblank op.spelling.toByteArray.data.toList = op.spelling.toByteArray.data.toList :=
  Ascii.unblank_eq_self fun b hb => (op.spelling_symbols b hb).2

namespace Cursor

/-- Between two cursors the text shows `bs`: what it shows from `c` on is `bs`, then what it
shows from `d` on. -/
def Shows (c d : Cursor) (bs : List UInt8) : Prop :=
  Ascii.visible c.ahead = bs ++ Ascii.visible d.ahead

namespace Shows

theorem refl (c : Cursor) : c.Shows c [] := rfl

theorem trans {c d e : Cursor} {a b : List UInt8} (h₁ : c.Shows d a) (h₂ : d.Shows e b) :
    c.Shows e (a ++ b) := by
  unfold Shows at *
  rw [h₁, h₂, List.append_assoc]

theorem of_skipBlanks {c d : Cursor} {bs : List UInt8} (h : c.skipBlanks.Shows d bs) : c.Shows d bs := by
  unfold Shows at *
  rw [← h, skipBlanks_ahead, Ascii.visible_dropWhile_blank]

theorem to_skipBlanks {c d : Cursor} {bs : List UInt8} (h : c.Shows d bs) : c.Shows d.skipBlanks bs := by
  unfold Shows at *
  rw [h, skipBlanks_ahead, Ascii.visible_dropWhile_blank]

/-- Bytes that are neither blanks nor name bytes show as they are read. -/
theorem of_symbols {c d : Cursor} {s : List UInt8}
    (hs : ∀ b ∈ s, Ascii.isNameByte b = false ∧ Ascii.isBlank b = false) (h : c.ahead = s ++ d.ahead) :
    c.Shows d s := by
  unfold Shows
  rw [h, Ascii.visible_symbols hs]

theorem of_eat {c d : Cursor} {lit : ByteArray} {x : UInt8} (hl : lit.data.toList = [x])
    (hx : Ascii.isNameByte x = false ∧ Ascii.isBlank x = false) (h : c.eat? lit = some d) :
    c.Shows d [x] := by
  refine of_symbols (by simpa using hx) ?_
  rw [(eat?_eq_some h).2, hl]

theorem of_peek {c : Cursor} {x : UInt8} (h0 : x ≠ 0)
    (hx : Ascii.isNameByte x = false ∧ Ascii.isBlank x = false) (h : c.peek = x) :
    c.Shows c.advance [x] := by
  refine of_symbols (by simpa using hx) ?_
  rw [peek_eq] at h
  rw [advance_ahead]
  cases hc : c.ahead with
  | nil => rw [hc] at h; exact absurd h.symm h0
  | cons y ys =>
    rw [hc, List.headD_cons] at h
    rw [h]
    rfl

end Shows

/-- The run of bytes that pass `p` starts with the byte under the cursor when that byte passes
`p` and the end of the text would not. -/
theorem head_takeWhile {c : Cursor} {p : UInt8 → Bool} (h0 : p 0 = false) (h : p c.peek = true) :
    (c.ahead.takeWhile p).head? = some c.peek := by
  rw [peek_eq] at h ⊢
  cases hc : c.ahead with
  | nil =>
    rw [hc, List.headD_nil, h0] at h
    cases h
  | cons y ys =>
    rw [hc, List.headD_cons] at h
    simp [List.takeWhile_cons_of_pos h]

/-- A run of bytes that pass `p` shows as `bs` when it shows so before what follows it. -/
theorem Shows.of_run {c : Cursor} {p : UInt8 → Bool} {bs : List UInt8}
    (h : Ascii.visible (c.ahead.takeWhile p ++ c.ahead.dropWhile p) =
      bs ++ Ascii.visible (c.ahead.dropWhile p)) : c.Shows (c.skipWhile p) bs := by
  unfold Shows
  rw [skipWhile_ahead, ← h, List.takeWhile_append_dropWhile]

/-- A name shows as it is spelt. -/
theorem identifier_shows {c d : Cursor} {n : Spanned String} (h : c.identifier = .ok (n, d)) :
    c.Shows d n.val.toUTF8.data.toList := by
  obtain ⟨hl, rfl, -⟩ := identifier_eq_ok h
  have hhead := head_takeWhile (by decide) (Ascii.isNameByte_of_isLetter hl)
  rw [identifier_bytes h]
  refine Shows.of_run (Ascii.visible_name ?_ (fun b hb => List.all_eq_true.mp List.all_takeWhile b hb)
    (Ascii.head_dropWhile _))
  intro b hb
  rw [hhead, Option.mem_some_iff] at hb
  rw [← hb]
  exact hl

theorem identifier_unblank {c d : Cursor} {n : Spanned String} (h : c.identifier = .ok (n, d)) :
    Ascii.unblank n.val.toByteArray.data.toList = n.val.toByteArray.data.toList := by
  refine Ascii.unblank_eq_self fun b hb => Ascii.isBlank_of_isNameByte ?_
  rw [← String.toUTF8_eq_toByteArray, identifier_bytes h] at hb
  exact List.all_eq_true.mp List.all_takeWhile b hb

/-- A number shows as the decimal numeral of its value: its digits without leading zeros. -/
theorem number_shows {c d : Cursor} {n : Spanned Int64} (hd : Ascii.isDigit c.peek = true)
    (h : c.number = .ok (n, d)) : c.Shows d (Ascii.natDecimal n.val.toInt.natAbs).toUTF8.data.toList := by
  obtain ⟨rfl, hv, -⟩ := number_eq_ok hd h
  have hval : n.val.toInt.natAbs = Ascii.digitsOf (c.ahead.takeWhile Ascii.isDigit) := by
    rw [hv, Ascii.digitsValue_eq, (takeWhile_eq _ c).1]
    rfl
  have hne : c.ahead.takeWhile Ascii.isDigit ≠ [] := fun he => by
    simpa [he] using head_takeWhile (by decide) hd
  rw [hval]
  exact Shows.of_run (Ascii.visible_number hne (fun b hb => List.all_eq_true.mp List.all_takeWhile b hb)
    (Ascii.head_dropWhile _))

end Cursor

theorem Bracket.closer_symbol (b : Bracket) :
    b.closer ≠ 0 ∧ Ascii.isNameByte b.closer = false ∧ Ascii.isBlank b.closer = false := by
  cases b <;> decide

namespace Reader

/-- A strict reading shows the closer it finds. -/
theorem closer_shows {b : Bracket} {openAt : Nat} {r r' : Reading}
    (h : closer .strict b openAt r = .ok () r') : r.cursor.Shows r'.cursor [b.closer] := by
  rcases closer_eq_ok.mp h with ⟨hp, rfl⟩ | ⟨-, hm, -⟩
  · exact Cursor.Shows.of_skipBlanks
      (Cursor.Shows.of_peek b.closer_symbol.1 b.closer_symbol.2 hp)
  · cases hm

section Visible

-- each reader shows the source of what it returns when the expression reader it calls does
variable {expr : Reader Expr}
  (hx : ∀ {r r' : Reading} {e : Expr}, expr r = .ok e r' →
    r.cursor.Shows r'.cursor (Ascii.unblank e.sourceBytes))
include hx

theorem items_shows : ∀ {n : Nat} {acc : Array Expr} {r r' : Reading} {es : List Expr},
    items expr n acc r = .ok es r' → ∃ es₁, es = acc.toList ++ es₁ ∧ es₁ ≠ [] ∧
      r.cursor.Shows r'.cursor (Ascii.unblank (Expr.listBytes es₁))
  | 0, _, _, _, _, h => by
    obtain ⟨e, s, he, rfl, rfl⟩ := items_zero_eq_ok.mp h
    exact ⟨[e], by simp, by simp, by simpa [Expr.listBytes] using (hx he).to_skipBlanks⟩
  | n + 1, _, _, _, _, h => by
    obtain ⟨e, s, he, ⟨c, hc, hi⟩ | ⟨-, rfl, rfl⟩⟩ := items_succ_eq_ok.mp h
    · obtain ⟨es₁, rfl, hne, hv⟩ := items_shows hi
      obtain ⟨e', es', rfl⟩ := List.exists_cons_of_ne_nil hne
      refine ⟨e :: e' :: es', by simp, by simp, ?_⟩
      have hcomma := Cursor.Shows.of_eat rfl (by decide) hc
      simpa [Expr.listBytes, Ascii.isBlank] using ((hx he).to_skipBlanks.trans hcomma).trans hv
    · exact ⟨[e], by simp, by simp, by simpa [Expr.listBytes] using (hx he).to_skipBlanks⟩

theorem primary_shows {r r' : Reading} {e : Expr} (h : primary .strict expr r = .ok e r') :
    r.cursor.Shows r'.cursor (Ascii.unblank e.sourceBytes) := by
  apply Cursor.Shows.of_skipBlanks
  rcases primary_eq_ok.mp h with ⟨d, inner, s, hd, hi, hc, rfl⟩ |
      ⟨-, d, elems, s, hd, hi, hc, rfl⟩ | ⟨-, -, ho, name, d, args, s, hn, ha, hc, rfl⟩ |
      ⟨-, -, -, hdig, n, d, hn, rfl, rfl⟩ | ⟨-, -, -, -, -, n, d, hn, rfl, rfl⟩
  · have hopen := Cursor.Shows.of_eat rfl (by decide) hd
    simpa [Expr.sourceBytes, Ascii.isBlank, Bracket.closer] using
      (hopen.trans (hx hi)).trans (closer_shows hc)
  · obtain ⟨es, hes, -, hv⟩ := items_shows hx hi
    rw [Array.toList_empty, List.nil_append] at hes
    subst hes
    have hopen := Cursor.Shows.of_eat rfl (by decide) hd
    simpa [Expr.sourceBytes, Ascii.isBlank, Bracket.closer] using (hopen.trans hv).trans (closer_shows hc)
  · -- a call: its name, the bracket right after it, then its arguments if any
    have hparen : d.peek = 40 := by
      rw [(Cursor.identifier_eq_ok hn).2.1]
      exact ((Cursor.opensCall_iff _).mp ho).2
    have hopen := (Cursor.Shows.of_peek (by decide) (by decide) hparen).to_skipBlanks
    have hargs : d.advance.skipBlanks.Shows s.cursor (Ascii.unblank (Expr.listBytes args)) := by
      split at ha
      · obtain ⟨rfl, rfl⟩ := ha
        exact .refl _
      · obtain ⟨es, hes, -, hv⟩ := items_shows hx ha
        rw [Array.toList_empty, List.nil_append] at hes
        rw [hes]
        exact hv
    have hall := ((Cursor.identifier_shows hn).trans hopen).trans hargs |>.trans (closer_shows hc)
    simpa [Expr.sourceBytes, Ascii.isBlank, Bracket.closer, Cursor.identifier_unblank hn] using hall
  · have hnn := Cursor.unsigned_of_number hdig hn
    rw [Expr.sourceBytes, Ascii.intDecimal, if_neg (by omega), Ascii.unblank_decimal]
    exact Cursor.number_shows hdig hn
  · simpa [Expr.sourceBytes, Cursor.identifier_unblank hn] using Cursor.identifier_shows hn

theorem unary_shows {r r' : Reading} {e : Expr} (h : unary .strict expr r = .ok e r') :
    r.cursor.Shows r'.cursor (Ascii.unblank e.sourceBytes) := by
  apply Cursor.Shows.of_skipBlanks
  rcases unary_eq_ok.mp h with ⟨op, d, x, hu, hp, rfl⟩ |
      ⟨-, x, s, hp, ⟨op, d, hpost, rfl, rfl⟩ | ⟨-, rfl, rfl⟩⟩
  · have hop := Cursor.Shows.of_symbols (UnaryOp.spelling_symbols op.val)
      (Cursor.unaryOp?_eq_some hu).2.2.1
    simpa [Expr.sourceBytes] using hop.trans (primary_shows hx hp)
  · have hop := Cursor.Shows.of_symbols (UnaryOp.spelling_symbols op.val)
      (Cursor.unaryOp?_eq_some (Cursor.postfixOp?_eq_some hpost).1).2.2.1
    simpa [Expr.sourceBytes] using (primary_shows hx hp).trans hop
  · exact primary_shows hx hp

theorem links_shows : ∀ {n : Nat} {acc : Array Link} {r r' : Reading} {ls : List Link},
    links (unary .strict expr) n acc r = .ok ls r' → ∃ ls₁, ls = acc.toList ++ ls₁ ∧
      r.cursor.Shows r'.cursor (Ascii.unblank (Chain.linkBytes ls₁))
  | 0, _, _, _, _, h => by
    obtain ⟨rfl, rfl⟩ := links_zero_eq_ok.mp h
    exact ⟨[], by simp, .refl _⟩
  | n + 1, _, _, _, _, h => by
    rcases links_succ_eq_ok.mp h with ⟨-, rfl, rfl⟩ | ⟨op, d, u, s, hb, hu, hl⟩
    · exact ⟨[], by simp, .refl _⟩
    · obtain ⟨ls₁, rfl, hv⟩ := links_shows hl
      refine ⟨⟨op, u⟩ :: ls₁, by simp, ?_⟩
      have hop := Cursor.Shows.of_symbols (BinaryOp.spelling_symbols op.val)
        (Cursor.binaryOp?_eq_some hb).2.2.1
      simpa [Chain.linkBytes, Ascii.isBlank] using (hop.trans (unary_shows hx hu).to_skipBlanks).trans hv

/-- A level shows its operands and operators in the order they were read: assembly only
rearranges them into a tree whose source lists them in that order. -/
theorem level_shows {r r' : Reading} {e : Expr} (h : level .strict expr r = .ok e r') :
    r.cursor.Shows r'.cursor (Ascii.unblank e.sourceBytes) := by
  obtain ⟨first, s, ls, hf, hl, -, hsp⟩ := level_spine h
  obtain ⟨ls₁, hls, hv⟩ := links_shows hx hl
  rw [Array.toList_empty, List.nil_append] at hls
  subst hls
  rw [← Expr.sourceBytes_spine, hsp, Chain.sourceBytes, Ascii.unblank_append]
  exact (unary_shows hx hf).to_skipBlanks.trans hv

end Visible

/-- A strict expression reading shows the source of the tree it returns, without its blanks. -/
theorem expression_shows : ∀ {b : Nat} {r r' : Reading} {e : Expr},
    expression .strict b r = .ok e r' → r.cursor.Shows r'.cursor (Ascii.unblank e.sourceBytes)
  | 0, _, _, _, h => absurd h expression_zero_ne_ok
  | _ + 1, _, _, _, h => level_shows (fun h' => expression_shows h') h

end Reader

/-- A text that reads strictly to a tree shows what the source of the tree shows: without
blanks, and with the leading zeros of the text's numbers dropped, the two are the same bytes. -/
theorem parse_visible {text : ByteArray} {e : Expr} (h : (Expr.parse text .strict).result = .ok e) :
    Ascii.visible text.data.toList = Ascii.unblank e.toSource.toUTF8.data.toList := by
  obtain ⟨r', hr⟩ := parseWithin_eq_ok.mp h
  obtain ⟨s, hx, ⟨hend, -⟩ | ⟨-, hm, -⟩⟩ := Reader.document_eq_ok.mp hr
  · have hs := (Reader.expression_shows hx).to_skipBlanks
    rw [Cursor.atEnd_iff] at hend
    unfold Cursor.Shows at hs
    rw [hend, Ascii.visible_nil, List.append_nil, Cursor.start_ahead] at hs
    rw [Expr.toSource_bytes, hs]
  · cases hm

theorem parse_visible_padded :
    Ascii.visible "07 +x".toUTF8.data.toList =
      Ascii.unblank (Expr.binary (.num 7 ⟨0, 2⟩) ⟨.add, ⟨3, 4⟩⟩ (.var "x" ⟨4, 5⟩) ⟨0, 5⟩).toSource.toUTF8.data.toList :=
  parse_visible (show (Expr.parse "07 +x".toUTF8 .strict).result =
    .ok (Expr.binary (.num 7 ⟨0, 2⟩) ⟨.add, ⟨3, 4⟩⟩ (.var "x" ⟨4, 5⟩) ⟨0, 5⟩) by rfl)

end Formula
