import Formula.Proofs.Layout
import Formula.Proofs.Canonical

/-! Blanks inserted where a tree admits them (`Expr.Admits`), outside its lexemes and not before a
call's `(` or a postfix operator, leave its reading as it was (`parse_spaced`). -/

namespace Formula

/-! ### Bytes with blanks inserted -/

section Splice

variable {w : List UInt8} (hw : ∀ b ∈ w, Ascii.isBlank b = true)
include hw

/-- Blanks inserted among leading blanks are passed over with them. -/
theorem dropWhile_blank_splice {X Y : List UInt8} (hX : ∀ b ∈ X, Ascii.isBlank b = true) :
    (X ++ w ++ Y).dropWhile Ascii.isBlank = (X ++ Y).dropWhile Ascii.isBlank := by
  rw [List.append_assoc, List.dropWhile_append_of_pos hX, List.dropWhile_append_of_pos hw,
    List.dropWhile_append_of_pos hX]

/-- A spelling without blanks that starts the bytes with blanks inserted starts the bytes: it
ends before the blanks. -/
theorem prefix_of_splice {s X Y : List UInt8} (hs : ∀ b ∈ s, Ascii.isBlank b = false)
    (h : s <+: X ++ w ++ Y) : s.length ≤ X.length ∨ w = [] := by
  rcases w with _ | ⟨b, w⟩
  · exact .inr rfl
  refine .inl (Nat.le_of_not_lt fun hlt => ?_)
  -- past `X` the spelling would have to go on with the first blank
  have hX : X <+: s := List.prefix_of_prefix_length_le (List.prefix_append_of_prefix
    (List.prefix_append X (b :: w))) h hlt.le
  obtain ⟨t, rfl⟩ := hX
  rw [List.append_assoc] at h
  have ht := (List.prefix_append_right_inj X).mp h
  rcases t with _ | ⟨a, t⟩
  · simp at hlt
  · have hab : a = b := by simpa using ht.head
    subst hab
    have := hs a (List.mem_append_right X List.mem_cons_self)
    rw [hw a List.mem_cons_self] at this
    cases this

/-- A spelling without blanks starts the bytes when it starts them with blanks inserted. -/
theorem prefix_of_prefix_splice {s X Y : List UInt8} (hs : ∀ b ∈ s, Ascii.isBlank b = false)
    (h : s <+: X ++ w ++ Y) : s <+: X ++ Y := by
  rcases prefix_of_splice hw hs h with hle | rfl
  · exact (List.prefix_of_prefix_length_le h
      (List.prefix_append_of_prefix (List.prefix_append X w)) hle).trans (List.prefix_append X Y)
  · simpa using h

/-- The first operator whose spelling starts the bytes is still the first once blanks are
inserted past its spelling, and where no spelling starts the bytes none starts them then: the
blanks only take candidates away. -/
theorem firstOp_splice {α : Type} {spelling : α → String} {ops : List α} {X Y : List UInt8}
    (hs : ∀ o ∈ ops, ∀ b ∈ (spelling o).toUTF8.data.toList, Ascii.isBlank b = false) :
    (Cursor.firstOp spelling ops (X ++ Y) = none →
      Cursor.firstOp spelling ops (X ++ w ++ Y) = none) ∧
    (∀ o, Cursor.firstOp spelling ops (X ++ Y) = some o →
      (spelling o).toUTF8.data.toList.length ≤ X.length →
      Cursor.firstOp spelling ops (X ++ w ++ Y) = some o) := by
  have hsub : ∀ o ∈ ops, (spelling o).toUTF8.data.toList.isPrefixOf (X ++ w ++ Y) = true →
      (spelling o).toUTF8.data.toList.isPrefixOf (X ++ Y) = true := by
    intro o ho hp
    rw [List.isPrefixOf_iff_prefix] at hp ⊢
    exact prefix_of_prefix_splice hw (hs o ho) hp
  constructor
  · intro hnone
    rw [Cursor.firstOp, List.find?_eq_none] at hnone ⊢
    exact fun o ho hp => hnone o ho (hsub o ho hp)
  · intro o hsome hlen
    rw [Cursor.firstOp, List.find?_eq_some_iff_append] at hsome ⊢
    obtain ⟨hpo, as, bs, hops, hbefore⟩ := hsome
    refine ⟨?_, as, bs, hops, fun a ha => ?_⟩
    · -- the spelling of `o` ends within `X`, before the blanks
      rw [List.isPrefixOf_iff_prefix] at hpo ⊢
      exact (List.prefix_of_prefix_length_le hpo (List.prefix_append X Y) hlen).trans
        (List.prefix_append_of_prefix (List.prefix_append X w))
    · have hao : a ∈ ops := by rw [hops]; exact List.mem_append_left _ ha
      have := hbefore a ha
      cases hq : (spelling a).toUTF8.data.toList.isPrefixOf (X ++ w ++ Y)
      · rfl
      · rw [hsub a hao hq] at this
        cases this

end Splice

/-- Bytes with one that fails `q` keep their run of `q` bytes, and the rest, whatever follows. -/
theorem dropWhile_append_of_exists {q : UInt8 → Bool} {X Z : List UInt8}
    (h : ∃ b ∈ X, q b = false) :
    (X ++ Z).dropWhile q = X.dropWhile q ++ Z ∧ (X ++ Z).takeWhile q = X.takeWhile q := by
  induction X with
  | nil => simp at h
  | cons b X ih =>
    by_cases hb : q b = true
    · have hX : ∃ b ∈ X, q b = false := by
        obtain ⟨a, ha, haq⟩ := h
        rcases List.mem_cons.mp ha with rfl | ha
        · rw [hb] at haq; cases haq
        · exact ⟨a, ha, haq⟩
      simp [List.dropWhile_cons_of_pos hb, List.takeWhile_cons_of_pos hb, ih hX]
    · simp [List.dropWhile_cons_of_neg hb, List.takeWhile_cons_of_neg hb]

/-- A run of `q` bytes, then bytes that do not start with one, splits there. -/
theorem split_while {q : UInt8 → Bool} {L R : List UInt8} (hL : ∀ b ∈ L, q b = true)
    (hR : ∀ b ∈ R.head?, q b = false) :
    (L ++ R).takeWhile q = L ∧ (L ++ R).dropWhile q = R := by
  rw [List.takeWhile_append_of_pos hL, List.dropWhile_append_of_pos hL]
  cases R with
  | nil => simp
  | cons b R => simp [hR b rfl]

theorem UnaryOp.spelling_ne_nil (o : UnaryOp) : o.spelling.toUTF8.data.toList ≠ [] := by
  rw [← List.length_pos_iff, Array.length_toList, ByteArray.size_data]
  exact o.size_spelling_pos

namespace Cursor

/-- `c'` reads, where `c` reads a text, the text with the blanks `w` inserted at offset `p`:
either the blanks are still ahead, after the first bytes `X` that `c` has left, or both cursors
have passed them and have the same bytes left. -/
def Spaced (p : Nat) (w : List UInt8) (c c' : Cursor) : Prop :=
  (∃ X Y, c.ahead = X ++ Y ∧ c'.ahead = X ++ w ++ Y ∧ c.offset + X.length = p) ∨
    (p ≤ c.offset ∧ c'.ahead = c.ahead)

/-- As `Spaced`, with the blanks not next: `c'` reads first what `c` reads first. Reading stands
so once it has passed blanks. -/
def Aligned (p : Nat) (w : List UInt8) (c c' : Cursor) : Prop :=
  (∃ X Y, X ≠ [] ∧ c.ahead = X ++ Y ∧ c'.ahead = X ++ w ++ Y ∧ c.offset + X.length = p) ∨
    (p ≤ c.offset ∧ c'.ahead = c.ahead)

section Relations

variable {p : Nat} {w : List UInt8} {c c' : Cursor}

theorem Aligned.spaced (h : Aligned p w c c') : Spaced p w c c' := by
  rcases h with ⟨X, Y, -, hc, hc', hp⟩ | h
  · exact .inl ⟨X, Y, hc, hc', hp⟩
  · exact .inr h

theorem Aligned.head (h : Aligned p w c c') : c'.ahead.head? = c.ahead.head? := by
  rcases h with ⟨X, Y, hX, hc, hc', -⟩ | ⟨-, hc'⟩
  · obtain ⟨x, X, rfl⟩ := List.exists_cons_of_ne_nil hX
    rw [hc, hc']
    rfl
  · rw [hc']

theorem Aligned.peek (h : Aligned p w c c') : c'.peek = c.peek := by
  rw [peek_eq, peek_eq, List.headD_eq_head?_getD, List.headD_eq_head?_getD, h.head]

theorem Aligned.atEnd (h : Aligned p w c c') : c'.atEnd = c.atEnd := by
  rw [Bool.eq_iff_iff, atEnd_iff, atEnd_iff, ← List.head?_eq_none_iff, ← List.head?_eq_none_iff,
    h.head]

theorem Spaced.unread_le (h : Spaced p w c c') : c.unread ≤ c'.unread := by
  rw [← length_ahead, ← length_ahead]
  rcases h with ⟨X, Y, hc, hc', -⟩ | ⟨-, hc'⟩
  · rw [hc, hc']
    simp only [List.length_append]
    omega
  · rw [hc']

/-- Where the blanks are next, `c'` reads a blank first, or nothing is inserted. -/
theorem Spaced.head (hw : ∀ b ∈ w, Ascii.isBlank b = true) (h : Spaced p w c c') :
    c'.ahead.head? = c.ahead.head? ∨ ∃ b ∈ c'.ahead.head?, Ascii.isBlank b = true := by
  rcases h with ⟨X, Y, hc, hc', -⟩ | ⟨-, hc'⟩
  · rcases X with _ | ⟨x, X⟩
    · rcases w with _ | ⟨b, w⟩
      · exact .inl (by rw [hc, hc']; rfl)
      · exact .inr ⟨b, by rw [hc']; rfl, hw b List.mem_cons_self⟩
    · exact .inl (by rw [hc, hc']; rfl)
  · exact .inl (by rw [hc'])

/-- Passing blanks on both sides leaves the blanks inserted either among those passed or
further on. -/
theorem Spaced.skipBlanks (hw : ∀ b ∈ w, Ascii.isBlank b = true) (h : Spaced p w c c') :
    Aligned p w c.skipBlanks c'.skipBlanks := by
  have hoff : c.skipBlanks.offset = c.offset + (c.ahead.takeWhile Ascii.isBlank).length :=
    offset_of_ahead (skipBlanks_text c) (by rw [skipBlanks_ahead, List.takeWhile_append_dropWhile])
  rcases h with ⟨X, Y, hc, hc', hp⟩ | ⟨hp, hc'⟩
  · by_cases hX : ∀ b ∈ X, Ascii.isBlank b = true
    · -- the inserted blanks fall among the blanks passed
      have hle : X.length ≤ (c.ahead.takeWhile Ascii.isBlank).length := by
        rw [hc, List.takeWhile_append_of_pos hX, List.length_append]
        omega
      refine .inr ⟨by omega, ?_⟩
      rw [skipBlanks_ahead, skipBlanks_ahead, hc', hc, dropWhile_blank_splice hw hX]
    · -- the inserted blanks stay ahead, after what is left of `X`
      have hX' : ∃ b ∈ X, Ascii.isBlank b = false := by
        simpa only [not_forall, Bool.not_eq_true, exists_prop] using hX
      obtain ⟨hdY, htY⟩ := dropWhile_append_of_exists (Z := Y) hX'
      obtain ⟨hdW, -⟩ := dropWhile_append_of_exists (Z := w ++ Y) hX'
      have hne : X.dropWhile Ascii.isBlank ≠ [] := by
        intro hnil
        obtain ⟨b, hb, hbb⟩ := hX'
        rw [List.dropWhile_eq_nil_iff] at hnil
        rw [hnil b hb] at hbb
        cases hbb
      refine .inl ⟨X.dropWhile Ascii.isBlank, Y, hne, by rw [skipBlanks_ahead, hc, hdY], ?_, ?_⟩
      · rw [skipBlanks_ahead, hc', List.append_assoc, hdW, List.append_assoc]
      · have hsplit := congrArg List.length (List.takeWhile_append_dropWhile (p := Ascii.isBlank) (l := X))
        rw [List.length_append] at hsplit
        rw [hoff, hc, htY]
        omega
  · refine .inr ⟨by omega, ?_⟩
    rw [skipBlanks_ahead, skipBlanks_ahead, hc']

end Relations

section Scanning

variable {p : Nat} {w : List UInt8} {c c' : Cursor}

/-- Spaced cursors with the blanks not next are aligned. -/
theorem Spaced.aligned (h : Spaced p w c c') (hp : p ≠ c.offset) : Aligned p w c c' := by
  rcases h with ⟨X, Y, hc, hc', hX⟩ | h
  · refine .inl ⟨X, Y, fun hnil => hp ?_, hc, hc', hX⟩
    rw [← hX, hnil, List.length_nil, Nat.add_zero]
  · exact .inr h

/-- Reading bytes `L` from aligned cursors, with `p` not strictly inside them: the other cursor
reads `L` as well, and whatever cursor stands after it is spaced with the one after `L`. -/
theorem Aligned.step {d : Cursor} {L : List UInt8} (h : Aligned p w c c') (ht : d.text = c.text)
    (hc : c.ahead = L ++ d.ahead) (hgap : ¬ (c.offset < p ∧ p < c.offset + L.length)) :
    ∃ R', c'.ahead = L ++ R' ∧ ∀ {d' : Cursor}, d'.ahead = R' → Spaced p w d d' := by
  have hoff := offset_of_ahead ht hc
  rcases h with ⟨X, Y, hX, hcX, hc', hp⟩ | ⟨hp, hc'⟩
  · -- the blanks come after `L`, within `X` or at its end
    have hle : L.length ≤ X.length := by
      have := List.length_pos_of_ne_nil hX
      omega
    have hLc : L <+: c.ahead := by rw [hc]; exact List.prefix_append L d.ahead
    have hXc : X <+: c.ahead := by rw [hcX]; exact List.prefix_append X Y
    obtain ⟨X', rfl⟩ := List.prefix_of_prefix_length_le hLc hXc hle
    have hd : d.ahead = X' ++ Y := by
      rw [hc, List.append_assoc] at hcX
      exact List.append_cancel_left hcX
    refine ⟨X' ++ w ++ Y, by rw [hc']; simp, fun hd' => .inl ⟨X', Y, hd, hd', ?_⟩⟩
    rw [List.length_append] at hp
    omega
  · exact ⟨d.ahead, by rw [hc', hc], fun hd' => .inr ⟨by omega, hd'⟩⟩

theorem Aligned.advance (h : Aligned p w c c') (hne : c.ahead ≠ []) :
    Spaced p w c.advance c'.advance := by
  obtain ⟨x, xs, hx⟩ := List.exists_cons_of_ne_nil hne
  have hc : c.ahead = [x] ++ c.advance.ahead := by rw [advance_ahead, hx]; rfl
  obtain ⟨R', hc', hR⟩ := h.step (advance_text c) hc (by simp only [List.length_singleton]; omega)
  exact hR (by rw [advance_ahead, hc']; rfl)

/-- A literal of one byte is eaten alike by aligned cursors. -/
theorem Aligned.eat?_byte {lit : ByteArray} {x : UInt8} (hl : lit.data.toList = [x])
    (h : Aligned p w c c') :
    (c.eat? lit = none → c'.eat? lit = none) ∧
      (∀ {d}, c.eat? lit = some d → ∃ d', c'.eat? lit = some d' ∧ Spaced p w d d') := by
  have hpre : ∀ {l : List UInt8}, [x] <+: l ↔ l.head? = some x := by
    intro l
    cases l <;> simp [eq_comm]
  constructor
  · intro hn
    rw [eat?_eq_none_iff, hl] at hn ⊢
    rwa [hpre, h.head, ← hpre]
  · intro d hd
    obtain ⟨ht, hc⟩ := eat?_eq_some hd
    rw [hl] at hc
    obtain ⟨R', hc', hR⟩ := h.step ht hc (by simp only [List.length_singleton]; omega)
    have hsize : 0 < lit.size := by
      rw [← ByteArray.size_data, ← Array.length_toList, hl, List.length_singleton]
      exact Nat.one_pos
    obtain ⟨d', hd', -, hda⟩ := eat?_of_prefix hsize (by rw [hl]; exact hc')
    exact ⟨d', hd', hR hda⟩

end Scanning

section Operators

variable {p : Nat} {w : List UInt8} (hw : ∀ b ∈ w, Ascii.isBlank b = true) {c c' : Cursor}
  {α : Type} {spelling : α → String} {ops : List α}
  (hne : ∀ o ∈ ops, 0 < (spelling o).toUTF8.size)
  (hs : ∀ o ∈ ops, ∀ b ∈ (spelling o).toUTF8.data.toList, Ascii.isBlank b = false)
include hw hne hs

/-- An operator scanned at `c`, where `p` does not fall strictly inside it, is scanned at an
aligned `c'` as well, and the cursors after it are spaced. -/
theorem Aligned.operator? (h : Aligned p w c c') {op : Spanned α} {d : Cursor}
    (ho : c.operator? spelling ops = some (op, d))
    (hgap : ¬ (op.span.start < p ∧ p < op.span.stop)) :
    ∃ sp d', c'.operator? spelling ops = some (⟨op.val, sp⟩, d') ∧ Spaced p w d d' := by
  obtain ⟨hf, ht, hc, hspan, hoff⟩ := operator?_eq_some hne ho
  have hlen : (spelling op.val).toUTF8.data.toList.length = (spelling op.val).toUTF8.size := by
    simp
  have hgap' : ¬ (c.offset < p ∧
      p < c.offset + (spelling op.val).toUTF8.data.toList.length) := by
    rw [hspan] at hgap
    simpa only [spanFrom, hoff, hlen] using hgap
  -- with the blanks past its spelling, the operator is still the first that starts the bytes
  have hf' : firstOp spelling ops c'.ahead = some op.val := by
    rcases h with ⟨X, Y, hX, hcX, hc', hp⟩ | ⟨-, hc'⟩
    · rw [hcX] at hf
      rw [hc']
      refine (firstOp_splice hw hs).2 op.val hf ?_
      have := List.length_pos_of_ne_nil hX
      omega
    · rw [hc', hf]
  obtain ⟨R', hc', hR⟩ := h.step ht hc hgap'
  have hsome : (c'.operator? spelling ops).isSome := by
    rw [operator?_eq _ _ _ hne, hf']
    rfl
  obtain ⟨⟨⟨v, sp⟩, d'⟩, hop'⟩ := Option.isSome_iff_exists.mp hsome
  obtain ⟨hf'', -, hc'', -⟩ := operator?_eq_some hne hop'
  rw [hf'] at hf''
  cases hf''
  rw [hc''] at hc'
  exact ⟨sp, d', hop', hR (List.append_cancel_left hc')⟩

/-- Where no operator starts at `c`, none starts at a spaced `c'`: the blanks only take
candidates away. -/
theorem Spaced.operator?_none (h : Spaced p w c c') (ho : c.operator? spelling ops = none) :
    c'.operator? spelling ops = none := by
  rw [operator?_eq _ _ _ hne, Option.map_eq_none_iff] at ho ⊢
  rcases h with ⟨X, Y, hcX, hc', -⟩ | ⟨-, hc'⟩
  · rw [hcX] at ho
    rw [hc']
    exact (firstOp_splice hw hs).1 ho
  · rwa [hc']

end Operators

/-- A name takes at least its first byte. -/
theorem offset_lt_skipWhile_name {c : Cursor} (hl : Ascii.isLetter c.peek = true) :
    c.offset < (c.skipWhile Ascii.isNameByte).offset := by
  have hc : c.ahead = c.ahead.takeWhile Ascii.isNameByte ++ (c.skipWhile Ascii.isNameByte).ahead := by
    rw [skipWhile_ahead, List.takeWhile_append_dropWhile]
  rw [offset_of_ahead (skipWhile_text _ c) hc,
    ahead_of_peek rfl (fun h0 => by rw [h0] at hl; exact absurd hl (by decide)),
    List.takeWhile_cons_of_pos (Ascii.isNameByte_of_isLetter hl), List.length_cons]
  omega

section Lexemes

variable {p : Nat} {w : List UInt8} (hw : ∀ b ∈ w, Ascii.isBlank b = true) {c c' : Cursor}
include hw

/-- A run of bytes that satisfy `q`, which no blank does, is read alike by aligned cursors when
`p` does not fall strictly inside it. -/
theorem Aligned.run {q : UInt8 → Bool} (hq : ∀ b, Ascii.isBlank b = true → q b = false)
    (h : Aligned p w c c') (hgap : ¬ (c.offset < p ∧ p < (c.skipWhile q).offset)) :
    (c'.takeWhile q).1 = (c.takeWhile q).1 ∧ Spaced p w (c.skipWhile q) (c'.skipWhile q) := by
  have hc : c.ahead = c.ahead.takeWhile q ++ (c.skipWhile q).ahead := by
    rw [skipWhile_ahead, List.takeWhile_append_dropWhile]
  have hoff := offset_of_ahead (skipWhile_text q c) hc
  obtain ⟨R', hc', hR⟩ := h.step (skipWhile_text q c) hc (by rw [← hoff]; exact hgap)
  -- past the run `c'` reads the byte after it or a blank, and neither satisfies `q`
  have hfw : (c'.forward (c.ahead.takeWhile q).length).ahead = R' := by
    rw [forward_ahead, hc', List.drop_left]
  have hstop : ∀ b ∈ R'.head?, q b = false := by
    intro b hb
    rcases (hR hfw).head hw with he | ⟨b', hb', hbb⟩
    · rw [hfw, skipWhile_ahead] at he
      rw [he] at hb
      exact Ascii.head_dropWhile c.ahead b hb
    · rw [hfw, hb] at hb'
      cases hb'
      exact hq b hbb
  have hsplit := split_while (L := c.ahead.takeWhile q) (fun b hb => List.mem_takeWhile_imp hb)
    hstop
  refine ⟨ByteArray.ext (Array.ext' ?_), hR ?_⟩
  · rw [(takeWhile_eq q c').1, (takeWhile_eq q c).1, hc', hsplit.1]
  · rw [skipWhile_ahead, hc', hsplit.2]

theorem Aligned.identifier (h : Aligned p w c c') {n : Spanned String} {d : Cursor}
    (hn : c.identifier = .ok (n, d)) (hgap : ¬ (n.span.start < p ∧ p < n.span.stop)) :
    ∃ sp d', c'.identifier = .ok (⟨n.val, sp⟩, d') ∧ Spaced p w d d' := by
  obtain ⟨hl, rfl, rfl⟩ := identifier_eq_ok hn
  obtain ⟨hbytes, hs⟩ := h.run hw (fun b hb => Ascii.isNameByte_of_isBlank hb) hgap
  rw [identifier_of_letter (by rw [h.peek]; exact hl), hbytes]
  exact ⟨_, _, rfl, hs⟩

theorem Aligned.number (h : Aligned p w c c') {n : Spanned Int64} {d : Cursor}
    (hd : Ascii.isDigit c.peek = true) (hn : c.number = .ok (n, d))
    (hgap : ¬ (n.span.start < p ∧ p < n.span.stop)) :
    ∃ n' d', c'.number = .ok (n', d') ∧ n'.val = n.val ∧ Spaced p w d d' := by
  obtain ⟨rfl, hval, hspan⟩ := number_eq_ok hd hn
  have hq : ∀ b, Ascii.isBlank b = true → Ascii.isDigit b = false := fun b hb => by
    cases hdb : Ascii.isDigit b
    · rfl
    · have := Ascii.isNameByte_of_isBlank hb
      rw [Ascii.isNameByte_of_isDigit hdb] at this
      cases this
  obtain ⟨hbytes, hs⟩ := h.run hw hq (by rw [hspan] at hgap; exact hgap)
  have hlt : Ascii.digitsValue (c'.takeWhile Ascii.isDigit).1 < 2 ^ 63 := by
    have := Int64.toInt_lt n.val
    rw [hbytes]
    omega
  obtain ⟨n', hn', hval'⟩ := number_of_digit (by rw [h.peek]; exact hd) hlt
  refine ⟨n', _, hn', Int64.toInt_inj.mp ?_, hs⟩
  rw [hval', hval, hbytes]

/-- Whether a call opens is decided alike at aligned cursors, unless `p` falls inside the name
or right after it. -/
theorem Aligned.opensCall (h : Aligned p w c c')
    (hgap : ¬ (c.offset < p ∧ p ≤ (c.skipWhile Ascii.isNameByte).offset)) :
    c'.opensCall = c.opensCall := by
  have hq := fun b (hb : Ascii.isBlank b = true) => Ascii.isNameByte_of_isBlank hb
  obtain ⟨-, hs⟩ := h.run hw hq (fun ⟨h₁, h₂⟩ => hgap ⟨h₁, h₂.le⟩)
  by_cases hl : Ascii.isLetter c.peek = true
  · rw [Bool.eq_iff_iff, opensCall_iff, opensCall_iff, h.peek]
    refine and_congr_right fun _ => ?_
    -- a name takes at least its first byte, so the blanks do not come right after it
    have hlen := offset_lt_skipWhile_name hl
    rw [(hs.aligned (by omega)).peek]
  · have hfalse : ∀ {e : Cursor}, ¬ Ascii.isLetter e.peek = true → e.opensCall = false :=
      fun hne => Bool.eq_false_iff.mpr fun ho => hne ((opensCall_iff _).mp ho).1
    rw [hfalse hl, hfalse (by rwa [h.peek])]

/-- A name not followed at once by `(` opens no call once blanks are inserted after it either. -/
theorem Aligned.opensCall_false (h : Aligned p w c c') (ho : c.opensCall = false)
    (hgap : Ascii.isLetter c.peek = true →
      ¬ (c.offset < p ∧ p < (c.skipWhile Ascii.isNameByte).offset)) :
    c'.opensCall = false := by
  rw [Bool.eq_false_iff] at ho ⊢
  intro ho'
  obtain ⟨hl, hpeek⟩ := (opensCall_iff c').mp ho'
  rw [h.peek] at hl
  obtain ⟨-, hs⟩ := h.run hw (q := Ascii.isNameByte) (fun b hb => Ascii.isNameByte_of_isBlank hb)
    (hgap hl)
  -- past the name `c'` reads what `c` reads there, or a blank, and neither is `(`
  rw [peek_eq, List.headD_eq_head?_getD] at hpeek
  rcases hs.head hw with he | ⟨b, hb, hbb⟩
  · rw [he, ← List.headD_eq_head?_getD, ← peek_eq] at hpeek
    exact ho ((opensCall_iff c).mpr ⟨hl, hpeek⟩)
  · rw [hb, Option.getD_some] at hpeek
    rw [hpeek] at hbb
    exact absurd hbb (by decide)

theorem Aligned.unaryOp? (h : Aligned p w c c') {op : Spanned UnaryOp} {d : Cursor}
    (ho : c.unaryOp? = some (op, d)) (hgap : ¬ (op.span.start < p ∧ p < op.span.stop)) :
    ∃ sp d', c'.unaryOp? = some (⟨op.val, sp⟩, d') ∧ Spaced p w d d' :=
  h.operator? hw (fun o _ => o.size_spelling_pos) (fun o _ b hb => (o.spelling_symbols b hb).2)
    ho hgap

theorem Aligned.binaryOp? (h : Aligned p w c c') {op : Spanned BinaryOp} {d : Cursor}
    (ho : c.binaryOp? = some (op, d)) (hgap : ¬ (op.span.start < p ∧ p < op.span.stop)) :
    ∃ sp d', c'.binaryOp? = some (⟨op.val, sp⟩, d') ∧ Spaced p w d d' :=
  h.operator? hw (fun o _ => o.size_spelling_pos) (fun o _ b hb => (o.spelling_symbols b hb).2)
    ho hgap

theorem Spaced.unaryOp?_none (h : Spaced p w c c') (ho : c.unaryOp? = none) : c'.unaryOp? = none :=
  h.operator?_none hw (fun o _ => o.size_spelling_pos)
    (fun o _ b hb => (o.spelling_symbols b hb).2) ho

theorem Spaced.binaryOp?_none (h : Spaced p w c c') (ho : c.binaryOp? = none) :
    c'.binaryOp? = none :=
  h.operator?_none hw (fun o _ => o.size_spelling_pos)
    (fun o _ b hb => (o.spelling_symbols b hb).2) ho

/-- The binary operator that starts at `c` starts at an aligned `c'` too, when it ends before
the blanks. -/
theorem Aligned.binaryLength (h : Aligned p w c c')
    (hle : c.offset + c.binaryLength ≤ p ∨ p ≤ c.offset) : c'.binaryLength = c.binaryLength := by
  rw [binaryLength_eq, binaryLength_eq]
  rcases h with ⟨X, Y, hX, hcX, hc', hp⟩ | ⟨-, hc'⟩
  · have hX0 := List.length_pos_of_ne_nil hX
    rw [binaryLength_eq, hcX] at hle
    rw [hc', hcX]
    cases hb : binaryAt (X ++ Y) with
    | none => rw [binaryAt, (firstOp_splice hw (fun o _ b hb => (o.spelling_symbols b hb).2)).1 hb]
    | some b =>
      rw [hb, Option.map_some, Option.getD_some] at hle
      have hlen : b.spelling.toUTF8.data.toList.length ≤ X.length := by
        simp only [ByteArray.size_data, Array.length_toList] at hle ⊢
        omega
      rw [binaryAt, (firstOp_splice hw (fun o _ b hb => (o.spelling_symbols b hb).2)).2 b hb hlen]
  · rw [hc']

end Lexemes

/-- A cursor over a byte that `q` refuses passes over nothing. -/
theorem skipWhile_of_head {q : UInt8 → Bool} {c : Cursor} (h : ∀ b ∈ c.ahead.head?, q b = false) :
    c.skipWhile q = c := by
  unfold skipWhile
  cases c.unread with
  | zero => rfl
  | succ n =>
    simp only [skipWhile.go, peek?_eq]
    cases hc : c.ahead.head? with
    | none => rfl
    | some b => simp [h b hc]

theorem skipBlanks_of_head {c : Cursor} (h : ∀ b ∈ c.ahead.head?, Ascii.isBlank b = false) :
    c.skipBlanks = c :=
  skipWhile_of_head h

/-- No unary operator starts with a blank. -/
theorem unaryAt_blank {b : UInt8} (hb : Ascii.isBlank b = true) (l : List UInt8) :
    unaryAt (b :: l) = none := by
  rw [unaryAt, firstOp, List.find?_eq_none]
  intro o _ hp
  rw [List.isPrefixOf_iff_prefix] at hp
  obtain ⟨x, xs, hx⟩ := List.exists_cons_of_ne_nil o.spelling_ne_nil
  rw [hx, List.cons_prefix_cons] at hp
  have hxs := (o.spelling_symbols x (by rw [hx]; exact List.mem_cons_self)).2
  rw [hp.1, hb] at hxs
  cases hxs

/-- `+` followed by a blank starts no unary operator: only `++` would. -/
theorem unaryAt_plus_blank {b : UInt8} (hb : Ascii.isBlank b = true) (l : List UInt8) :
    unaryAt (43 :: b :: l) = none := by
  have hb43 : ((43 : UInt8) == b) = false := by
    rw [beq_eq_false_iff_ne]
    rintro rfl
    exact absurd hb (by decide)
  simp [unaryAt, firstOp, UnaryOp.all, UnaryOp.spelling_bytes, List.find?,
    List.isPrefixOf_cons_cons, hb43]

/-- `-` followed by a blank is negation: `--` would need a second `-`. -/
theorem unaryAt_minus_blank {b : UInt8} (hb : Ascii.isBlank b = true) (l : List UInt8) :
    unaryAt (45 :: b :: l) = some .neg := by
  have hb45 : ((45 : UInt8) == b) = false := by
    rw [beq_eq_false_iff_ne]
    rintro rfl
    exact absurd hb (by decide)
  simp [unaryAt, firstOp, UnaryOp.all, UnaryOp.spelling_bytes, List.find?,
    List.isPrefixOf_cons_cons, hb45]

/-- Blanks inside `++` or `--` after an operand leave no postfix operator there: what is left of
`++` is no operator, and a `-` with another `-` after the blanks is binary. -/
theorem postfixOp?_split {w : List UInt8} (hw : ∀ b ∈ w, Ascii.isBlank b = true) (hw0 : w ≠ [])
    {c' : Cursor} {x : UInt8} {Y : List UInt8} {op : UnaryOp} (hop : unaryAt (x :: Y) = some op)
    (hlen : 1 < op.spelling.toUTF8.size) (hc' : c'.ahead = x :: (w ++ Y)) :
    c'.postfixOp? = none := by
  obtain ⟨b, w', rfl⟩ := List.exists_cons_of_ne_nil hw0
  have hb := hw b List.mem_cons_self
  have hpre := firstOp_eq_some hop
  rw [String.toUTF8_eq_toByteArray, UnaryOp.spelling_bytes] at hpre
  cases op with
  | not | neg => exact absurd hlen (by decide)
  | inc =>
    obtain ⟨rfl, -⟩ := List.cons_prefix_cons.mp hpre
    exact postfixOp?_of_unaryAt_none (by rw [hc']; exact unaryAt_plus_blank hb _)
  | dec =>
    obtain ⟨rfl, Z, rfl⟩ := List.cons_prefix_cons.mp hpre
    rw [Option.eq_none_iff_forall_ne_some]
    rintro ⟨o, f⟩ hsome
    obtain ⟨hu, -, -, hn⟩ := postfixOp?_eq_some hsome
    obtain ⟨hua, -, hca, -⟩ := unaryOp?_eq_some hu
    -- `c'` reads `-` and then the blanks, so `-` is both the unary and the binary operator there
    rw [hc', List.cons_append, unaryAt_minus_blank hb, Option.some.injEq] at hua
    have hbl : c'.binaryLength = 1 := by
      rw [binaryLength_eq, hc', binaryAt_minus]
      rfl
    -- and past the blanks the second `-` opens the next operand, which the guard refuses
    rw [← hua, hc'] at hca
    have hf : f.ahead = b :: w' ++ [45] ++ Z := by
      simpa [String.toUTF8_eq_toByteArray, UnaryOp.spelling_bytes] using hca.symm
    have hfs : f.skipBlanks.ahead = 45 :: Z := by
      rw [skipBlanks_ahead, hf, List.append_assoc, List.dropWhile_append_of_pos hw]
      rfl
    have hnone := hn (by rw [← hua, hbl]; rfl)
    rw [unaryOp?_eq_none, hfs] at hnone
    have := unaryAt_minus Z
    rw [hnone] at this
    cases this

/-- A unary operator starts with a byte that is not blank. -/
theorem unaryOp?_head {c d : Cursor} {op : Spanned UnaryOp} (hu : c.unaryOp? = some (op, d)) :
    ∀ b ∈ c.ahead.head?, Ascii.isBlank b = false := by
  intro b hb
  rw [(unaryOp?_eq_some hu).2.2.1, List.head?_append_of_ne_nil _ op.val.spelling_ne_nil] at hb
  exact (op.val.spelling_symbols b (List.mem_of_mem_head? hb)).2

/-- After an operand read up to `c`, the binary operator that follows past blanks, and the
prefix operator of the operand after it, have `p` not strictly inside them. -/
def Continues (p : Nat) (c : Cursor) : Prop :=
  ∀ b d, c.skipBlanks.binaryOp? = some (b, d) → ¬ (b.span.start < p ∧ p < b.span.stop) ∧
    ∀ o e, d.skipBlanks.unaryOp? = some (o, e) → ¬ (o.span.start < p ∧ p < o.span.stop)

section Continues

variable {p : Nat} {c : Cursor} (hc : Continues p c)
  (hnb : ∀ b ∈ c.ahead.head?, Ascii.isBlank b = false)
include hc hnb

/-- The binary operator that starts right after an operand ends before the blanks. -/
theorem Continues.binaryLength : c.offset + c.binaryLength ≤ p ∨ p ≤ c.offset := by
  rw [binaryLength_eq]
  cases hb : binaryAt c.ahead with
  | none => simp only [Option.map_none, Option.getD_none, Nat.add_zero]; omega
  | some b =>
    obtain ⟨d, sp, hbo, -⟩ := binaryOp?_of_binaryAt hb
    obtain ⟨-, -, -, hspan, hoff⟩ := binaryOp?_eq_some hbo
    have hgap := (hc _ _ (by rw [skipBlanks_of_head hnb]; exact hbo)).1
    rw [hspan] at hgap
    simp only [spanFrom, hoff] at hgap
    simp only [Option.map_some, Option.getD_some]
    omega

/-- A unary operator after an operand as long as the binary operator there is followed by what
is read as the next operand, so its prefix operator has `p` not strictly inside it. -/
theorem Continues.unary {op : Spanned UnaryOp} {d : Cursor} (hu : c.unaryOp? = some (op, d))
    (hL : op.val.spelling.toUTF8.size = c.binaryLength) {o : Spanned UnaryOp} {e : Cursor}
    (he : d.skipBlanks.unaryOp? = some (o, e)) : ¬ (o.span.start < p ∧ p < o.span.stop) := by
  have hpos := op.val.size_spelling_pos
  rw [unaryOp?_eq, Option.map_eq_some_iff] at hu
  obtain ⟨o', -, he'⟩ := hu
  simp only [Prod.mk.injEq] at he'
  obtain ⟨rfl, rfl⟩ := he'
  rw [binaryLength_eq] at hL
  cases hb : binaryAt c.ahead with
  | none =>
    rw [hb, Option.map_none, Option.getD_none] at hL
    omega
  | some b =>
    rw [hb, Option.map_some, Option.getD_some] at hL
    -- the binary operator ends where the unary one does: the cursors after them agree
    have hbo : c.skipBlanks.binaryOp? = some (⟨b, (c.seek (c.offset + b.spelling.toUTF8.size)).spanFrom
        c.offset⟩, c.seek (c.offset + b.spelling.toUTF8.size)) := by
      rw [skipBlanks_of_head hnb, binaryOp?_eq, hb]
      rfl
    exact (hc _ _ hbo).2 o e (by rw [← hL]; exact he)

end Continues

section Postfix

variable {p : Nat} {w : List UInt8} (hw : ∀ b ∈ w, Ascii.isBlank b = true) {c c' : Cursor}
include hw

/-- Spaced cursors are aligned, or the other one reads a blank first. -/
theorem Spaced.aligned_or_blank (h : Spaced p w c c') :
    Aligned p w c c' ∨ ∃ b ∈ c'.ahead.head?, Ascii.isBlank b = true := by
  rcases h with ⟨X, Y, hc, hc', hp⟩ | h
  · rcases X with _ | ⟨x, X⟩
    · rcases w with _ | ⟨b, w⟩
      · exact .inl (.inr ⟨by simp only [List.length_nil] at hp; omega, by rw [hc, hc']; rfl⟩)
      · exact .inr ⟨b, by rw [hc']; rfl, hw b List.mem_cons_self⟩
    · exact .inl (.inl ⟨x :: X, Y, List.cons_ne_nil x X, hc, hc', hp⟩)
  · exact .inl (.inr h)

/-- A postfix operator accepted at `c`, with `p` neither inside it nor right before it, is
accepted at a spaced `c'` as well. -/
theorem Spaced.postfixOp? (h : Spaced p w c c') {op : Spanned UnaryOp} {d : Cursor}
    (ho : c.postfixOp? = some (op, d)) (hgap : ¬ (op.span.start ≤ p ∧ p < op.span.stop)) :
    ∃ sp d', c'.postfixOp? = some (⟨op.val, sp⟩, d') ∧ Spaced p w d d' := by
  obtain ⟨hu, hb, hpr, hn⟩ := postfixOp?_eq_some ho
  obtain ⟨-, -, -, hspan, hoff⟩ := unaryOp?_eq_some hu
  have hpos := op.val.size_spelling_pos
  rw [hspan] at hgap
  simp only [spanFrom, hoff] at hgap
  -- the operator starts at `c`, so the blanks are not next
  have ha := h.aligned (by omega)
  obtain ⟨sp, d', hu', hd⟩ := ha.unaryOp? hw hu (by rw [hspan]; simp only [spanFrom, hoff]; omega)
  have hL := ha.binaryLength hw (by omega)
  have he := hd.skipBlanks hw
  refine ⟨sp, d', postfixOp?_of hu' (by rw [hL]; exact hb) (by rw [he.peek]; exact hpr)
    fun heq => ?_, hd⟩
  exact he.spaced.unaryOp?_none hw (hn (by rw [← hL]; exact heq))

/-- A postfix operator refused at `c` is refused at an aligned `c'` as well when the blanks do
not split the operator: each reason to refuse it carries over, the one about a binary operator
and the operand after it through `Continues`. -/
theorem Aligned.postfixOp?_none (ha : Aligned p w c c') (ho : c.postfixOp? = none)
    (hc : Continues p c) {op : Spanned UnaryOp} {d : Cursor} (hu : c.unaryOp? = some (op, d))
    (hin : ¬ (c.offset < p ∧ p < c.offset + op.val.spelling.toUTF8.size)) :
    c'.postfixOp? = none := by
  obtain ⟨-, -, -, hspan, hoff⟩ := unaryOp?_eq_some hu
  have hnb := unaryOp?_head hu
  obtain ⟨sp, d', hu', hd⟩ := ha.unaryOp? hw hu (by rw [hspan]; simp only [spanFrom, hoff]; exact hin)
  have hL := ha.binaryLength hw (hc.binaryLength hnb)
  have he := hd.skipBlanks hw
  rw [Option.eq_none_iff_forall_ne_some]
  rintro ⟨o, f⟩ hsome
  obtain ⟨hu'', hb', hpr', hn'⟩ := postfixOp?_eq_some hsome
  rw [hu', Option.some.injEq, Prod.mk.injEq] at hu''
  obtain ⟨rfl, rfl⟩ := hu''
  -- were it accepted at `c'`, it would be accepted at `c`
  have hacc := postfixOp?_of hu (by rw [← hL]; exact hb') (by rw [← he.peek]; exact hpr')
    fun heq => ?_
  · rw [ho] at hacc
    cases hacc
  · cases he2 : d.skipBlanks.unaryOp? with
    | none => rfl
    | some oe =>
      obtain ⟨o2, e2⟩ := oe
      obtain ⟨sp2, e2', he2', -⟩ := he.unaryOp? hw he2 (hc.unary hnb hu heq he2)
      rw [hn' (by rw [hL]; exact heq)] at he2'
      cases he2'

/-- A postfix operator refused at `c` is refused at a spaced `c'` as well, as long as what is
read after the operand is not broken. -/
theorem Spaced.postfixOp?_none (hw0 : w ≠ []) (h : Spaced p w c c') (ho : c.postfixOp? = none)
    (hc : Continues p c) : c'.postfixOp? = none := by
  rcases hu : c.unaryOp? with _ | ⟨op, d⟩
  · exact postfixOp?_of_unaryAt_none (unaryOp?_eq_none.mp (h.unaryOp?_none hw hu))
  rcases h.aligned_or_blank hw with ha | ⟨b, hb, hbb⟩
  · by_cases hin : c.offset < p ∧ p < c.offset + op.val.spelling.toUTF8.size
    · -- the blanks fall inside the operator, which then is `++` or `--`, after its first byte
      have hsz : ∀ o : UnaryOp, o.spelling.toUTF8.size ≤ 2 := by intro o; cases o <;> decide
      rcases ha with ⟨X, Y, hX, hcX, hc', hp⟩ | ⟨hp, -⟩
      · have hX1 : X.length = 1 := by
          have := List.length_pos_of_ne_nil hX
          have := hsz op.val
          omega
        obtain ⟨x, rfl⟩ := List.length_eq_one_iff.mp hX1
        have hua := (unaryOp?_eq_some hu).1
        rw [hcX] at hua
        exact postfixOp?_split hw hw0 hua (by have := hsz op.val; omega) (by rw [hc']; rfl)
      · omega
    · exact ha.postfixOp?_none hw ho hc hu hin
  · -- `c'` reads a blank first, and no operator starts with one
    apply postfixOp?_of_unaryAt_none
    cases hy : c'.ahead with
    | nil => rw [hy] at hb; cases hb
    | cons y ys =>
      rw [hy, List.head?_cons, Option.mem_def, Option.some.injEq] at hb
      rw [hb]
      exact unaryAt_blank hbb ys

end Postfix

end Cursor

namespace Expr

/-- Blanks inserted at offset `p` break this node: they fall inside one of its lexemes, between
the name of a call and its `(`, or right before a postfix operator, which counts as one only
when it follows its operand at once. -/
def BrokenAt (p : Nat) : Expr → Prop
  | unary op .pre _ _ => op.span.start < p ∧ p < op.span.stop
  | unary op .post _ _ => op.span.start ≤ p ∧ p < op.span.stop
  | binary _ op _ _ => op.span.start < p ∧ p < op.span.stop
  | call name _ _ => name.span.start < p ∧ p ≤ name.span.stop
  | num _ s | var _ s => s.start < p ∧ p < s.stop
  | group .. | array .. => False

instance (p : Nat) : DecidablePred (BrokenAt p) := fun e => by
  unfold BrokenAt
  split <;> infer_instance

/-- Blanks may be inserted at `p`: no node of the tree is broken there. -/
def Admits (p : Nat) (e : Expr) : Prop := ∀ x ∈ e.nodes, ¬ x.BrokenAt p

instance (p : Nat) (e : Expr) : Decidable (e.Admits p) := by
  unfold Admits
  infer_instance

/-- The operands of the spine of a tree are nodes of it. -/
theorem mem_nodes_of_mem_spine : ∀ {e x : Expr}, x ∈ e.spine.operands → x ∈ e.nodes
  | binary l _ r _, x, h => by
    simp only [spine, Chain.operands_append, List.mem_append] at h
    rcases h with h | h
    · exact mem_nodes_of_child (by simp [children]) (mem_nodes_of_mem_spine h)
    · exact mem_nodes_of_child (by simp [children]) (mem_nodes_of_mem_spine h)
  | unary .., _, h | group .., _, h | array .., _, h | call .., _, h | num .., _, h
  | var .., _, h => by
    obtain rfl := List.mem_singleton.mp h
    exact mem_nodes_self _

/-- The operators of the spine of a tree are those of binary nodes of it. -/
theorem binary_mem_nodes_of_mem_spine : ∀ {e : Expr} {l : Link}, l ∈ e.spine.links →
    ∃ a b s, binary a l.op b s ∈ e.nodes
  | binary lft op rgt s, l, h => by
    simp only [spine, Chain.append, List.mem_append, List.mem_cons] at h
    rcases h with h | rfl | h
    · obtain ⟨a, b, s', hm⟩ := binary_mem_nodes_of_mem_spine h
      exact ⟨a, b, s', mem_nodes_of_child (by simp [children]) hm⟩
    · exact ⟨lft, rgt, s, mem_nodes_self _⟩
    · obtain ⟨a, b, s', hm⟩ := binary_mem_nodes_of_mem_spine h
      exact ⟨a, b, s', mem_nodes_of_child (by simp [children]) hm⟩
  | unary .., _, h | group .., _, h | array .., _, h | call .., _, h | num .., _, h
  | var .., _, h => by simp [spine] at h

section Admits

variable {p : Nat} {e : Expr}

theorem Admits.self (h : e.Admits p) : ¬ e.BrokenAt p := h e e.mem_nodes_self

theorem Admits.child {c : Expr} (h : e.Admits p) (hc : c ∈ e.children) : c.Admits p :=
  fun x hx => h x (mem_nodes_of_child hc hx)

theorem Admits.operand {x : Expr} (h : e.Admits p) (hx : x ∈ e.spine.operands) : x.Admits p :=
  fun y hy => h y (nodes_trans (mem_nodes_of_mem_spine hx) hy)

theorem Admits.link {l : Link} (h : e.Admits p) (hl : l ∈ e.spine.links) :
    ¬ (l.op.span.start < p ∧ p < l.op.span.stop) := by
  obtain ⟨a, b, s, hm⟩ := binary_mem_nodes_of_mem_spine hl
  exact h _ hm

end Admits

theorem sameShapeList_append : ∀ {as bs cs ds : List Expr}, sameShapeList as bs = true →
    sameShapeList cs ds = true → sameShapeList (as ++ cs) (bs ++ ds) = true
  | [], [], _, _, _, h => h
  | _ :: _, _ :: _, _, _, h, h' => by
    simp only [List.cons_append, sameShapeList, Bool.and_eq_true] at h ⊢
    exact ⟨h.1, sameShapeList_append h.2 h'⟩
  | [], _ :: _, _, _, h, _ | _ :: _, [], _, _, h, _ => by simp [sameShapeList] at h

theorem sameShapeList_push {acc acc' : Array Expr} {e e' : Expr}
    (hacc : sameShapeList acc.toList acc'.toList = true) (he : sameShape e e' = true) :
    sameShapeList (acc.push e).toList (acc'.push e').toList = true := by
  rw [Array.toList_push, Array.toList_push]
  exact sameShapeList_append hacc (by simp [sameShapeList, he])

end Expr

namespace Cursor

theorem unread_of_ahead {c d : Cursor} {L : List UInt8} (h : c.ahead = L ++ d.ahead) :
    d.unread + L.length = c.unread := by
  rw [← length_ahead, ← length_ahead, h, List.length_append, Nat.add_comm]

theorem unread_skipBlanks_le (c : Cursor) : c.skipBlanks.unread ≤ c.unread := by
  rw [← length_ahead, ← length_ahead, skipBlanks_ahead]
  exact (List.dropWhile_suffix _).length_le

/-- Nothing is eaten where nothing is left. -/
theorem eat?_of_unread_zero {c : Cursor} {lit : ByteArray} (h : c.unread = 0) : c.eat? lit = none := by
  rw [eat?_eq_none_iff]
  rintro ⟨hpos, hpre⟩
  have hl := hpre.length_le
  rw [length_ahead, h, Array.length_toList, ByteArray.size_data] at hl
  omega

theorem binaryOp?_of_unread_zero {c : Cursor} (h : c.unread = 0) : c.binaryOp? = none := by
  rw [binaryOp?_eq, List.eq_nil_of_length_eq_zero ((length_ahead c).trans h)]
  rfl

end Cursor

namespace Reader

open Formula.Cursor

/-- Reading that lays a tree up to where it stops leaves no more bytes unread. -/
theorem Lays.unread_le {mode : Mode} {r r' : Reading} {e : Expr} (h : Lays mode r e r')
    (hs : e.span.stop ≤ r'.cursor.offset) : r'.cursor.unread ≤ r.cursor.unread := by
  have := h.fits
  have := h.start
  have := offset_le_skipBlanks r.cursor
  rw [unread, unread, h.text]
  omega

theorem closer_spaced {p : Nat} {w : List UInt8} (hw : ∀ b ∈ w, Ascii.isBlank b = true)
    {mode : Mode} {b : Bracket} {openAt : Nat} {r r₁ r' : Reading} (openAt' : Nat)
    (h : closer mode b openAt r = .ok () r₁) (hs : Spaced p w r.cursor r'.cursor) :
    ∃ r₁', closer mode b openAt' r' = .ok () r₁' ∧ Spaced p w r₁.cursor r₁'.cursor := by
  have ha := hs.skipBlanks hw
  rcases closer_eq_ok.mp h with ⟨hp, rfl⟩ | ⟨hp, rfl, rfl⟩
  · have hne : r.cursor.skipBlanks.ahead ≠ [] := by
      rw [ahead_of_peek hp b.closer_symbol.1]
      exact List.cons_ne_nil _ _
    exact ⟨_, closer_eq_ok.mpr (.inl ⟨by rw [ha.peek]; exact hp, rfl⟩), ha.advance hne⟩
  · exact ⟨_, closer_eq_ok.mpr (.inr ⟨by rw [ha.peek]; exact hp, rfl, rfl⟩), ha.spaced⟩

theorem items_mem {expr : Reader Expr} {n : Nat} {acc : Array Expr} {r r' : Reading}
    {es : List Expr} (h : items expr n acc r = .ok es r') : ∀ x ∈ acc.toList, x ∈ es := by
  obtain ⟨es₁, rfl, -⟩ := items_each (P := fun _ => True) (fun _ => trivial) h
  exact fun x hx => List.mem_append_left _ hx

theorem links_mem {operand : Reader Expr} {n : Nat} {acc : Array Link} {r r' : Reading}
    {ls : List Link} (h : links operand n acc r = .ok ls r') : ∀ l ∈ acc.toList, l ∈ ls := by
  obtain ⟨ls₁, rfl, -⟩ := links_each (P := fun _ => True) (fun _ => trivial) h
  exact fun l hl => List.mem_append_left _ hl

/-- The operand read up to `s` is followed by links none of which is broken, so what follows it
is not broken either. -/
theorem links_continues {mode : Mode} {expr : Reader Expr} {p n : Nat} {acc : Array Link}
    {s r₁ : Reading} {ls : List Link}
    (h : links (unary mode expr) n acc ⟨s.cursor.skipBlanks, s.warnings⟩ = .ok ls r₁)
    (hn : s.cursor.skipBlanks.unread ≤ n)
    (hadm : ∀ l ∈ ls, ¬ (l.op.span.start < p ∧ p < l.op.span.stop) ∧ l.operand.Admits p) :
    Continues p s.cursor := by
  intro b d hb
  cases n with
  | zero =>
    rw [binaryOp?_of_unread_zero (by omega)] at hb
    cases hb
  | succ k =>
    rcases links_succ_eq_ok.mp h with ⟨hnone, -, -⟩ | ⟨op, d₂, u, s₂, hop, hu, hrest⟩
    · dsimp only at hnone
      rw [hnone] at hb
      cases hb
    · dsimp only at hop
      rw [hop, Option.some.injEq, Prod.mk.injEq] at hb
      obtain ⟨rfl, rfl⟩ := hb
      -- the operator and the operand after it are those of a link
      have hmem := hadm _ (links_mem hrest ⟨op, u⟩ (by simp))
      refine ⟨hmem.1, fun o e he => ?_⟩
      rcases unary_eq_ok.mp hu with ⟨o', e', x, hu', -, rfl⟩ | ⟨hnone, -⟩
      · dsimp only at hu'
        rw [he, Option.some.injEq, Prod.mk.injEq] at hu'
        obtain ⟨rfl, rfl⟩ := hu'
        exact hmem.2.self
      · dsimp only at hnone
        rw [he] at hnone
        cases hnone

section Spacing

-- reading the text with blanks inserted goes in step with reading it without them, as long as
-- the expression reader that is called does
variable {p : Nat} {w : List UInt8} (hw : ∀ b ∈ w, Ascii.isBlank b = true) (hw0 : w ≠ [])
  {mode : Mode} {expr : Reader Expr}
  (hl : ∀ {r r₁ : Reading} {e : Expr}, expr r = .ok e r₁ →
    Lays mode r e r₁ ∧ r₁.cursor.After e.span.stop)
  (hx : ∀ {r r₁ : Reading} {e : Expr} (r' : Reading), expr r = .ok e r₁ → e.Admits p →
    Spaced p w r.cursor r'.cursor → ∃ e' r₁', expr r' = .ok e' r₁' ∧
      e.sameShape e' = true ∧ Spaced p w r₁.cursor r₁'.cursor)
include hw hl hx

/-- Items read with the fuel counting the bytes left are read alike with more fuel and the
blanks inserted. -/
theorem items_spaced : ∀ {n : Nat} {acc : Array Expr} {r r₁ : Reading} {es : List Expr}
    (n' : Nat) (acc' : Array Expr) (r' : Reading), items expr n acc r = .ok es r₁ → r.cursor.unread ≤ n → n ≤ n' →
    Expr.sameShapeList acc.toList acc'.toList = true → (∀ x ∈ es, x.Admits p) →
    Spaced p w r.cursor r'.cursor →
    ∃ es' r₁', items expr n' acc' r' = .ok es' r₁' ∧ Expr.sameShapeList es es' = true ∧
      Spaced p w r₁.cursor r₁'.cursor
  | 0, acc, r, r₁, es, n', acc', r', h, hn, _, hacc, hadm, hs => by
    obtain ⟨e, s, he, rfl, rfl⟩ := items_zero_eq_ok.mp h
    obtain ⟨e', s', he', hsh, hss⟩ := hx r' he (hadm e (by simp)) hs
    have hpush := Expr.sameShapeList_push hacc hsh
    have ha := hss.skipBlanks hw
    cases n' with
    | zero => exact ⟨_, _, items_zero_eq_ok.mpr ⟨e', s', he', rfl, rfl⟩, hpush, ha.spaced⟩
    | succ k' =>
      -- the fuel ran out with nothing left to read, so no comma follows
      have hend : s.cursor.skipBlanks.eat? ",".toUTF8 = none := by
        obtain ⟨hla, haf⟩ := hl he
        have := hla.unread_le (hla.stop_le haf)
        have := unread_skipBlanks_le s.cursor
        exact eat?_of_unread_zero (by omega)
      exact ⟨_, _, items_succ_eq_ok.mpr ⟨e', s', he', .inr ⟨(ha.eat?_byte (x := 44) rfl).1 hend,
        rfl, rfl⟩⟩, hpush, ha.spaced⟩
  | k + 1, acc, r, r₁, es, n', acc', r', h, hn, hnn, hacc, hadm, hs => by
    obtain ⟨e, s, he, hrest⟩ := items_succ_eq_ok.mp h
    have hmem : e ∈ es := by
      rcases hrest with ⟨c, -, hi⟩ | ⟨-, rfl, -⟩
      · exact items_mem hi e (by simp)
      · simp
    obtain ⟨e', s', he', hsh, hss⟩ := hx r' he (hadm e hmem) hs
    have hpush := Expr.sameShapeList_push hacc hsh
    have ha := hss.skipBlanks hw
    obtain ⟨k', rfl⟩ : ∃ k', n' = k' + 1 := ⟨n' - 1, by omega⟩
    rcases hrest with ⟨c, hc, hi⟩ | ⟨hc, rfl, rfl⟩
    · obtain ⟨c', hc', hcc⟩ := (ha.eat?_byte (x := 44) rfl).2 hc
      -- the item gives no byte back and the comma takes one, so the fuel still covers the rest
      have hcu : c.unread + 1 = s.cursor.skipBlanks.unread := unread_of_ahead (eat?_eq_some hc).2
      obtain ⟨hla, haf⟩ := hl he
      have := hla.unread_le (hla.stop_le haf)
      have := unread_skipBlanks_le s.cursor
      obtain ⟨es', r₁', hi', hsh', hs'⟩ := items_spaced k' (acc'.push e') ⟨c', s'.warnings⟩ hi
        (by dsimp only; omega) (by omega) hpush hadm hcc
      exact ⟨es', r₁', items_succ_eq_ok.mpr ⟨e', s', he', .inl ⟨c', hc', hi'⟩⟩, hsh', hs'⟩
    · exact ⟨_, _, items_succ_eq_ok.mpr ⟨e', s', he', .inr ⟨(ha.eat?_byte (x := 44) rfl).1 hc,
        rfl, rfl⟩⟩, hpush, ha.spaced⟩

omit hl in
theorem group_spaced {r r₁ s : Reading} {d : Cursor} {inner : Expr} (r' : Reading)
    (hd : r.cursor.skipBlanks.eat? "(".toUTF8 = some d) (hi : expr ⟨d, r.warnings⟩ = .ok inner s)
    (hc : closer mode .round r.cursor.skipBlanks.offset s = .ok () r₁) (hadm : inner.Admits p)
    (hs : Spaced p w r.cursor r'.cursor) :
    ∃ inner' r₁', primary mode expr r' =
        .ok (.group inner' (r₁'.cursor.spanFrom r'.cursor.skipBlanks.offset)) r₁' ∧
      inner.sameShape inner' = true ∧ Spaced p w r₁.cursor r₁'.cursor := by
  have ha := hs.skipBlanks hw
  obtain ⟨d', hd', hdd⟩ := (ha.eat?_byte (x := 40) rfl).2 hd
  obtain ⟨inner', s', hi', hsh, hss⟩ := hx ⟨d', r'.warnings⟩ hi hadm hdd
  obtain ⟨r₁', hc', hrr⟩ := closer_spaced hw r'.cursor.skipBlanks.offset hc hss
  exact ⟨inner', r₁', primary_eq_ok.mpr (.inl ⟨d', inner', s', hd', hi', hc', rfl⟩), hsh, hrr⟩

theorem array_spaced {r r₁ s : Reading} {d : Cursor} {elems : List Expr} (r' : Reading)
    (h0 : r.cursor.skipBlanks.eat? "(".toUTF8 = none)
    (hd : r.cursor.skipBlanks.eat? "[".toUTF8 = some d)
    (hi : items expr d.unread #[] ⟨d, r.warnings⟩ = .ok elems s)
    (hc : closer mode .square r.cursor.skipBlanks.offset s = .ok () r₁)
    (hadm : ∀ x ∈ elems, x.Admits p) (hs : Spaced p w r.cursor r'.cursor) :
    ∃ elems' r₁', primary mode expr r' =
        .ok (.array elems' (r₁'.cursor.spanFrom r'.cursor.skipBlanks.offset)) r₁' ∧
      Expr.sameShapeList elems elems' = true ∧ Spaced p w r₁.cursor r₁'.cursor := by
  have ha := hs.skipBlanks hw
  obtain ⟨d', hd', hdd⟩ := (ha.eat?_byte (x := 91) rfl).2 hd
  obtain ⟨elems', s', hi', hsh, hss⟩ := items_spaced hw hl hx d'.unread #[] ⟨d', r'.warnings⟩ hi le_rfl
    hdd.unread_le rfl hadm hdd
  obtain ⟨r₁', hc', hrr⟩ := closer_spaced hw r'.cursor.skipBlanks.offset hc hss
  exact ⟨elems', r₁', primary_eq_ok.mpr (.inr (.inl ⟨(ha.eat?_byte (x := 40) rfl).1 h0, d', elems',
    s', hd', hi', hc', rfl⟩)), hsh, hrr⟩

theorem call_spaced {r r₁ s : Reading} {name : Spanned String} {d : Cursor} {args : List Expr}
    (r' : Reading)
    (h0 : r.cursor.skipBlanks.eat? "(".toUTF8 = none)
    (h1 : r.cursor.skipBlanks.eat? "[".toUTF8 = none) (ho : r.cursor.skipBlanks.opensCall = true)
    (hn : r.cursor.skipBlanks.identifier = .ok (name, d))
    (has : if d.advance.skipBlanks.peek = 41 then args = [] ∧ s = ⟨d.advance.skipBlanks, r.warnings⟩
      else items expr d.advance.skipBlanks.unread #[] ⟨d.advance.skipBlanks, r.warnings⟩ =
        .ok args s)
    (hc : closer mode .round d.offset s = .ok () r₁)
    (hgap : ¬ (name.span.start < p ∧ p ≤ name.span.stop)) (hadm : ∀ x ∈ args, x.Admits p)
    (hs : Spaced p w r.cursor r'.cursor) :
    ∃ sp args' r₁', primary mode expr r' = .ok (.call ⟨name.val, sp⟩ args'
        (r₁'.cursor.spanFrom r'.cursor.skipBlanks.offset)) r₁' ∧
      Expr.sameShapeList args args' = true ∧ Spaced p w r₁.cursor r₁'.cursor := by
  have ha := hs.skipBlanks hw
  obtain ⟨hlet, rfl, rfl⟩ := identifier_eq_ok hn
  have hlen := offset_lt_skipWhile_name hlet
  simp only [spanFrom] at hgap
  have ho' : r'.cursor.skipBlanks.opensCall = true := by rw [ha.opensCall hw hgap]; exact ho
  obtain ⟨sp, d', hn', hdd⟩ := ha.identifier hw hn (fun h => hgap ⟨h.1, h.2.le⟩)
  -- the name ends before the blanks, so `(` follows it on both sides
  have h40 := ((opensCall_iff _).mp ho).2
  have hne : (r.cursor.skipBlanks.skipWhile Ascii.isNameByte).ahead ≠ [] := by
    rw [ahead_of_peek h40 (by decide)]
    exact List.cons_ne_nil _ _
  have hbl := ((hdd.aligned (by omega)).advance hne).skipBlanks hw
  obtain ⟨args', s', has', hsh, hss⟩ : ∃ args' s',
      (if d'.advance.skipBlanks.peek = 41 then args' = [] ∧ s' = ⟨d'.advance.skipBlanks, r'.warnings⟩
        else items expr d'.advance.skipBlanks.unread #[] ⟨d'.advance.skipBlanks, r'.warnings⟩ =
          .ok args' s') ∧ Expr.sameShapeList args args' = true ∧ Spaced p w s.cursor s'.cursor := by
    by_cases h41 : (r.cursor.skipBlanks.skipWhile Ascii.isNameByte).advance.skipBlanks.peek = 41
    · rw [if_pos h41] at has
      obtain ⟨rfl, rfl⟩ := has
      exact ⟨[], _, by rw [if_pos (by rw [hbl.peek]; exact h41)]; exact ⟨rfl, rfl⟩, rfl, hbl.spaced⟩
    · rw [if_neg h41] at has
      obtain ⟨args', s', hi', hsh, hss⟩ := items_spaced hw hl hx d'.advance.skipBlanks.unread #[]
        ⟨d'.advance.skipBlanks, r'.warnings⟩ has le_rfl hbl.spaced.unread_le rfl hadm
        hbl.spaced
      exact ⟨args', s', by rw [if_neg (by rw [hbl.peek]; exact h41)]; exact hi', hsh, hss⟩
  obtain ⟨r₁', hc', hrr⟩ := closer_spaced hw d'.offset hc hss
  exact ⟨sp, args', r₁', primary_eq_ok.mpr (.inr (.inr (.inl ⟨(ha.eat?_byte (x := 40) rfl).1 h0,
    (ha.eat?_byte (x := 91) rfl).1 h1, ho', _, d', args', s', hn', has', hc', rfl⟩))), hsh, hrr⟩

theorem primary_spaced {r r₁ : Reading} {e : Expr} (r' : Reading)
    (h : primary mode expr r = .ok e r₁)
    (hadm : e.Admits p) (hs : Spaced p w r.cursor r'.cursor) :
    ∃ e' r₁', primary mode expr r' = .ok e' r₁' ∧ e.sameShape e' = true ∧
      Spaced p w r₁.cursor r₁'.cursor := by
  have ha := hs.skipBlanks hw
  have hch : ∀ {x : Expr}, x ∈ e.children → x.Admits p := fun hx => hadm.child hx
  rcases primary_eq_ok.mp h with ⟨d, inner, s, hd, hi, hc, rfl⟩ |
      ⟨h0, d, elems, s, hd, hi, hc, rfl⟩ | ⟨h0, h1, ho, name, d, args, s, hn, has, hc, rfl⟩ |
      ⟨h0, h1, ho, hdig, n, d, hn, rfl, rfl⟩ | ⟨h0, h1, ho, hdig, hlet, n, d, hn, rfl, rfl⟩
  · obtain ⟨inner', r₁', hp', hsh, hrr⟩ := group_spaced hw hx r' hd hi hc (hch (by simp [Expr.children])) hs
    exact ⟨_, r₁', hp', by simpa [Expr.sameShape] using hsh, hrr⟩
  · obtain ⟨elems', r₁', hp', hsh, hrr⟩ := array_spaced hw hl hx r' h0 hd hi hc
      (fun x hx => hch (by simpa [Expr.children] using hx)) hs
    exact ⟨_, r₁', hp', by simpa [Expr.sameShape] using hsh, hrr⟩
  · obtain ⟨sp, args', r₁', hp', hsh, hrr⟩ := call_spaced hw hl hx r' h0 h1 ho hn has hc hadm.self
      (fun x hx => hch (by simpa [Expr.children] using hx)) hs
    exact ⟨_, r₁', hp', by simpa [Expr.sameShape] using hsh, hrr⟩
  · -- a number: no call opens at a digit
    obtain ⟨n', d', hn', hval, hdd⟩ := ha.number hw hdig hn hadm.self
    have hnl : ¬ Ascii.isLetter r.cursor.skipBlanks.peek = true := by
      rw [Ascii.isLetter_of_isDigit hdig]
      exact Bool.false_ne_true
    refine ⟨_, _, primary_eq_ok.mpr (.inr (.inr (.inr (.inl ⟨(ha.eat?_byte (x := 40) rfl).1 h0,
      (ha.eat?_byte (x := 91) rfl).1 h1, ha.opensCall_false hw ho (absurd · hnl),
      by rw [ha.peek]; exact hdig, n', d', hn', rfl, rfl⟩)))), by simp [Expr.sameShape, hval], hdd⟩
  · -- a name that opens no call
    obtain ⟨sp, d', hn', hdd⟩ := ha.identifier hw hn hadm.self
    obtain ⟨-, hd, hnn⟩ := identifier_eq_ok hn
    have hgap : ¬ (r.cursor.skipBlanks.offset < p ∧
        p < (r.cursor.skipBlanks.skipWhile Ascii.isNameByte).offset) := by
      have := hadm.self
      rw [hnn, hd] at this
      exact this
    refine ⟨_, _, primary_eq_ok.mpr (.inr (.inr (.inr (.inr ⟨(ha.eat?_byte (x := 40) rfl).1 h0,
      (ha.eat?_byte (x := 91) rfl).1 h1, ha.opensCall_false hw ho fun _ => hgap,
      by rw [ha.peek]; exact hdig, by rw [ha.peek]; exact hlet, _, d', hn', rfl, rfl⟩)))),
      by simp [Expr.sameShape], hdd⟩

include hw0 in
/-- A unary operand is read alike, provided what follows it is not broken either: whether an
operator after it is postfix depends on that. -/
theorem unary_spaced {r r₁ : Reading} {e : Expr} (r' : Reading)
    (h : unary mode expr r = .ok e r₁)
    (hadm : e.Admits p) (hc : Continues p r₁.cursor) (hs : Spaced p w r.cursor r'.cursor) :
    ∃ e' r₁', unary mode expr r' = .ok e' r₁' ∧ e.sameShape e' = true ∧
      Spaced p w r₁.cursor r₁'.cursor := by
  have ha := hs.skipBlanks hw
  rcases unary_eq_ok.mp h with ⟨op, d, x, hu, hp, rfl⟩ |
      ⟨hu, x, s, hp, ⟨op, d, hpo, rfl, rfl⟩ | ⟨hpo, rfl, rfl⟩⟩
  · -- a prefix operator, then its primary
    obtain ⟨sp, d', hu', hdd⟩ := ha.unaryOp? hw hu hadm.self
    obtain ⟨x', r₁', hp', hsh, hrr⟩ := primary_spaced hw hl hx ⟨d', r'.warnings⟩ hp
      (hadm.child (by simp [Expr.children])) hdd
    exact ⟨_, r₁', unary_eq_ok.mpr (.inl ⟨_, d', x', hu', hp', rfl⟩),
      by simp [Expr.sameShape, hsh], hrr⟩
  · -- a primary, then a postfix operator at once
    obtain ⟨x', s', hp', hsh, hss⟩ := primary_spaced hw hl hx
      ⟨r'.cursor.skipBlanks, r'.warnings⟩ hp (hadm.child (by simp [Expr.children]))
      ha.spaced
    obtain ⟨sp, d', hpo', hdd⟩ := hss.postfixOp? hw hpo hadm.self
    exact ⟨_, _, unary_eq_ok.mpr (.inr ⟨ha.spaced.unaryOp?_none hw hu, x', s', hp',
      .inl ⟨_, d', hpo', rfl, rfl⟩⟩), by simp [Expr.sameShape, hsh], hdd⟩
  · -- a primary alone
    obtain ⟨x', s', hp', hsh, hss⟩ := primary_spaced hw hl hx
      ⟨r'.cursor.skipBlanks, r'.warnings⟩ hp hadm ha.spaced
    exact ⟨x', s', unary_eq_ok.mpr (.inr ⟨ha.spaced.unaryOp?_none hw hu, x', s', hp',
      .inr ⟨hss.postfixOp?_none hw hw0 hpo hc, rfl, rfl⟩⟩), hsh, hss⟩

include hw0 in
/-- Links read with the fuel counting the bytes left are read alike with more fuel and the
blanks inserted. -/
theorem links_spaced : ∀ {n : Nat} {acc : Array Link} {r r₁ : Reading} {ls : List Link}
    (n' : Nat) (acc' : Array Link) (r' : Reading), links (unary mode expr) n acc r = .ok ls r₁ → r.cursor.unread ≤ n → n ≤ n' →
    List.Forall₂ Link.Alike acc.toList acc'.toList →
    (∀ l ∈ ls, ¬ (l.op.span.start < p ∧ p < l.op.span.stop) ∧ l.operand.Admits p) →
    Aligned p w r.cursor r'.cursor →
    ∃ ls' r₁', links (unary mode expr) n' acc' r' = .ok ls' r₁' ∧ List.Forall₂ Link.Alike ls ls' ∧
      Aligned p w r₁.cursor r₁'.cursor
  | 0, acc, r, r₁, ls, n', acc', r', h, hn, _, hacc, _, ha => by
    obtain ⟨rfl, rfl⟩ := links_zero_eq_ok.mp h
    cases n' with
    | zero => exact ⟨_, _, links_zero_eq_ok.mpr ⟨rfl, rfl⟩, hacc, ha⟩
    | succ k' =>
      -- nothing was left to read, so no operator follows
      exact ⟨_, _, links_succ_eq_ok.mpr (.inl ⟨ha.spaced.binaryOp?_none hw
        (binaryOp?_of_unread_zero (by omega)), rfl, rfl⟩), hacc, ha⟩
  | k + 1, acc, r, r₁, ls, n', acc', r', h, hn, hnn, hacc, hadm, ha => by
    obtain ⟨k', rfl⟩ : ∃ k', n' = k' + 1 := ⟨n' - 1, by omega⟩
    rcases links_succ_eq_ok.mp h with ⟨hnone, rfl, rfl⟩ | ⟨op, d, u, s, hop, hu, hrest⟩
    · exact ⟨_, _, links_succ_eq_ok.mpr (.inl ⟨ha.spaced.binaryOp?_none hw hnone, rfl, rfl⟩), hacc,
        ha⟩
    · have hmem := hadm _ (links_mem hrest ⟨op, u⟩ (by simp))
      obtain ⟨sp, d', hop', hdd⟩ := ha.binaryOp? hw hop hmem.1
      -- the operator takes a byte, and the operand gives none back
      have hdu := unread_of_ahead (binaryOp?_eq_some hop).2.2.1
      have hpos := op.val.size_spelling_pos
      simp only [Array.length_toList, ByteArray.size_data] at hdu
      have hlu := unary_lays hl hu
      have hsu := hlu.1.unread_le hlu.2.le
      have hsb := unread_skipBlanks_le s.cursor
      dsimp only at hsu
      have hc := links_continues hrest (by omega) hadm
      obtain ⟨u', s', hu', hsh, hss⟩ := unary_spaced hw hw0 hl hx ⟨d', r'.warnings⟩ hu
        hmem.2 hc hdd
      have hpush : List.Forall₂ Link.Alike (acc.push ⟨op, u⟩).toList
          (acc'.push ⟨⟨op.val, sp⟩, u'⟩).toList := by
        rw [Array.toList_push, Array.toList_push]
        exact List.rel_append hacc (.cons ⟨rfl, hsh⟩ .nil)
      obtain ⟨ls', r₁', hrest', hall, hrr⟩ := links_spaced k'
        (acc'.push ⟨⟨op.val, sp⟩, u'⟩) ⟨s'.cursor.skipBlanks, s'.warnings⟩ hrest (by dsimp only; omega) (by omega) hpush
        hadm (hss.skipBlanks hw)
      exact ⟨ls', r₁', links_succ_eq_ok.mpr (.inr ⟨_, d', u', s', hop', hu', hrest'⟩), hall, hrr⟩

include hw0 in
/-- A level is read alike: its operands and operators are, and assembly looks only at their
shapes. -/
theorem level_spaced {r r₁ : Reading} {e : Expr} (r' : Reading)
    (h : level mode expr r = .ok e r₁)
    (hadm : e.Admits p) (hs : Spaced p w r.cursor r'.cursor) :
    ∃ e' r₁', level mode expr r' = .ok e' r₁' ∧ e.sameShape e' = true ∧
      Spaced p w r₁.cursor r₁'.cursor := by
  obtain ⟨first, s, ls, hf, hls, hasm, hsp⟩ := level_spine h
  -- the operands and operators read are the spine of the tree, so none of them is broken
  have hlinks : ∀ l ∈ ls, ¬ (l.op.span.start < p ∧ p < l.op.span.stop) ∧ l.operand.Admits p := by
    intro l hl'
    have hml : l ∈ e.spine.links := by rw [hsp]; exact hl'
    have hmo : l.operand ∈ e.spine.operands := by
      rw [hsp]
      exact List.mem_cons_of_mem _ (List.mem_map_of_mem hl')
    exact ⟨hadm.link hml, hadm.operand hmo⟩
  obtain ⟨first', s', hf', hsh, hss⟩ := unary_spaced hw hw0 hl hx r' hf
    (hadm.operand (by rw [hsp]; exact List.mem_cons_self)) (links_continues hls le_rfl hlinks) hs
  have ha := hss.skipBlanks hw
  obtain ⟨ls', r₁', hls', hall, hrr⟩ := links_spaced hw hw0 hl hx _ #[]
    ⟨s'.cursor.skipBlanks, s'.warnings⟩ hls le_rfl ha.spaced.unread_le .nil hlinks ha
  obtain ⟨e', hasm', hsh'⟩ := @Chain.assemble_congr ⟨first, ls⟩ ⟨first', ls'⟩ e hsh hall hasm
  exact ⟨e', r₁', level_eq_ok.mpr ⟨first', s', ls', hf', hls', hasm'⟩, hsh', hrr.spaced⟩

end Spacing

/-- An expression is read alike with the blanks inserted, whatever its budget. -/
theorem expression_spaced {p : Nat} {w : List UInt8} (hw : ∀ b ∈ w, Ascii.isBlank b = true)
    (hw0 : w ≠ []) {mode : Mode} : ∀ {b : Nat} {r r₁ : Reading} {e : Expr} (r' : Reading),
    expression mode b r = .ok e r₁ → e.Admits p → Spaced p w r.cursor r'.cursor →
    ∃ e' r₁', expression mode b r' = .ok e' r₁' ∧ e.sameShape e' = true ∧
      Spaced p w r₁.cursor r₁'.cursor
  | 0, _, _, _, _, h, _, _ => absurd h expression_zero_ne_ok
  | _ + 1, _, _, _, r', h, hadm, hs =>
    level_spaced hw hw0 expression_lays (fun r' h' => expression_spaced hw hw0 r' h') r' h hadm hs

theorem document_spaced {p : Nat} {w : List UInt8} (hw : ∀ b ∈ w, Ascii.isBlank b = true)
    (hw0 : w ≠ []) {mode : Mode} {b : Nat} {r r₁ : Reading} {e : Expr} (r' : Reading)
    (h : document mode b r = .ok e r₁) (hadm : e.Admits p) (hs : Spaced p w r.cursor r'.cursor) :
    ∃ e' r₁', document mode b r' = .ok e' r₁' ∧ e.sameShape e' = true := by
  obtain ⟨s, hx, hend⟩ := document_eq_ok.mp h
  obtain ⟨e', s', hx', hsh, hss⟩ := expression_spaced hw hw0 r' hx hadm hs
  have ha := hss.skipBlanks hw
  -- the text ends after the expression on both sides or on neither
  rcases hend with ⟨hat, -⟩ | ⟨hat, hm, -⟩
  · exact ⟨e', _, document_eq_ok.mpr ⟨s', hx', .inl ⟨by rw [ha.atEnd]; exact hat, rfl⟩⟩, hsh⟩
  · exact ⟨e', _, document_eq_ok.mpr ⟨s', hx', .inr ⟨by rw [ha.atEnd]; exact hat, hm, rfl⟩⟩, hsh⟩

end Reader

/-- The text with the bytes `w` inserted at offset `p`. -/
def insertBytes (text : ByteArray) (p : Nat) (w : List UInt8) : ByteArray :=
  ⟨(text.data.toList.take p ++ w ++ text.data.toList.drop p).toArray⟩

theorem spaced_start {text : ByteArray} {p : Nat} {w : List UInt8} (hp : p ≤ text.size) :
    Cursor.Spaced p w (Cursor.start text) (Cursor.start (insertBytes text p w)) := by
  refine .inl ⟨text.data.toList.take p, text.data.toList.drop p, ?_, ?_, ?_⟩
  · simp [Cursor.ahead, Cursor.start]
  · simp [Cursor.ahead, Cursor.start, insertBytes]
  · simp only [Cursor.start, List.length_take, Array.length_toList, ByteArray.size_data]
    omega

/-- Trees of the same shape have the same canonical text. -/
theorem Expr.canonical_congr {a b : Expr} (h : a.sameShape b = true) : a.canonical = b.canonical := by
  apply eq_of_bytes
  rw [canonical_bytes, canonical_bytes, canonicalBytes_congr h]

/-- Blanks inserted into a text where its tree admits them change nothing that is read: the text
with them reads, in the same mode, to a tree of the same shape, with the same canonical text.
Where the tree does not admit them they may: inside a lexeme, between the name of a call and its
`(`, and right before a postfix operator. -/
theorem parse_spaced {text : ByteArray} {mode : Mode} {e : Expr} {p : Nat} {w : List UInt8}
    (h : (Expr.parse text mode).result = .ok e) (hp : p ≤ text.size)
    (hw : ∀ b ∈ w, Ascii.isBlank b = true) (hadm : e.Admits p) :
    ∃ e', (Expr.parse (insertBytes text p w) mode).result = .ok e' ∧ e.sameShape e' = true ∧
      e.canonical = e'.canonical := by
  by_cases hw0 : w = []
  · -- nothing is inserted
    subst hw0
    have htext : insertBytes text p [] = text := by simp [insertBytes]
    exact ⟨e, by rw [htext]; exact h, Expr.sameShape_of_erase rfl, rfl⟩
  obtain ⟨r₁, hd⟩ := parseWithin_eq_ok.mp h
  obtain ⟨e', r₁', hd', hsh⟩ := Reader.document_spaced hw hw0
    ⟨Cursor.start (insertBytes text p w), []⟩ hd hadm (spaced_start hp)
  exact ⟨e', parseWithin_eq_ok.mpr ⟨r₁', hd'⟩, hsh, Expr.canonical_congr hsh⟩

/-- A blank between a postfix `!` and the operator after it changes nothing. -/
theorem parse_spaced_after_postfix : ∃ e',
    (Expr.parse (insertBytes "x!+y".toUTF8 2 [32]) .strict).result = .ok e' ∧
    (Expr.binary (.unary ⟨.not, ⟨1, 2⟩⟩ .post (.var "x" ⟨0, 1⟩) ⟨0, 2⟩) ⟨.add, ⟨2, 3⟩⟩
      (.var "y" ⟨3, 4⟩) ⟨0, 4⟩).sameShape e' = true ∧
    (Expr.binary (.unary ⟨.not, ⟨1, 2⟩⟩ .post (.var "x" ⟨0, 1⟩) ⟨0, 2⟩) ⟨.add, ⟨2, 3⟩⟩
      (.var "y" ⟨3, 4⟩) ⟨0, 4⟩).canonical = e'.canonical :=
  parse_spaced (show (Expr.parse "x!+y".toUTF8 .strict).result = .ok (Expr.binary
    (.unary ⟨.not, ⟨1, 2⟩⟩ .post (.var "x" ⟨0, 1⟩) ⟨0, 2⟩) ⟨.add, ⟨2, 3⟩⟩ (.var "y" ⟨3, 4⟩)
    ⟨0, 4⟩) by rfl) (by decide) (by simp [Ascii.isBlank])
    (by simp [Expr.Admits, Expr.nodes, Expr.BrokenAt])

/-- A blank right before a postfix operator is not incidental: `x!` reads as a postfix `!`, but
with a blank inserted before the `!` a strict reading fails and a lenient one reads `x` alone,
passing over the `!`. The tree does not admit the blank there. -/
theorem parse_blank_before_postfix :
    (Expr.parse "x!".toUTF8 .strict).result =
      .ok (.unary ⟨.not, ⟨1, 2⟩⟩ .post (.var "x" ⟨0, 1⟩) ⟨0, 2⟩) ∧
    (Expr.parse (insertBytes "x!".toUTF8 1 [32]) .strict).result.toOption = none ∧
    (Expr.parse (insertBytes "x!".toUTF8 1 [32]) .lenient).result = .ok (.var "x" ⟨0, 1⟩) ∧
    ¬ (Expr.unary ⟨.not, ⟨1, 2⟩⟩ .post (.var "x" ⟨0, 1⟩) ⟨0, 2⟩).Admits 1 :=
  ⟨rfl, rfl, rfl, by decide⟩

end Formula
