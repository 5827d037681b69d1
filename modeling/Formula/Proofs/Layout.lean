import Formula.Proofs.Spans

/-! Where reading lays the nodes of the tree it returns: all located in the text, and in a strict
reading spanning the text less the blanks around it (`parse_spans`). -/

namespace Formula

namespace Cursor

theorem offset_le_length (c : Cursor) : c.offset ≤ c.text.data.toList.length := by
  simpa using c.offset_le

theorem ahead_skipWhile (p : UInt8 → Bool) (c : Cursor) :
    c.ahead = c.ahead.takeWhile p ++ (c.skipWhile p).ahead := by
  rw [skipWhile_ahead, List.takeWhile_append_dropWhile]

theorem offset_le_skipWhile (p : UInt8 → Bool) (c : Cursor) : c.offset ≤ (c.skipWhile p).offset := by
  rw [offset_of_ahead (skipWhile_text p c) (ahead_skipWhile p c)]
  exact Nat.le_add_right _ _

theorem offset_le_skipBlanks (c : Cursor) : c.offset ≤ c.skipBlanks.offset :=
  offset_le_skipWhile _ c

theorem skipBlanks_skipBlanks_offset (c : Cursor) : c.skipBlanks.skipBlanks.offset = c.skipBlanks.offset := by
  rw [offset_eq c.skipBlanks.skipBlanks, offset_eq c.skipBlanks, skipBlanks_ahead c.skipBlanks,
    skipBlanks_ahead, List.dropWhile_idempotent, skipBlanks_text]

/-- A cursor over a byte other than zero reads it by advancing. -/
theorem ahead_of_peek {c : Cursor} {b : UInt8} (h : c.peek = b) (hb : b ≠ 0) :
    c.ahead = b :: c.advance.ahead := by
  rw [peek_eq] at h
  rw [advance_ahead]
  cases hc : c.ahead with
  | nil =>
    rw [hc, List.headD_nil] at h
    exact absurd h.symm hb
  | cons y ys =>
    rw [hc, List.headD_cons] at h
    rw [h, List.tail_cons]

/-- The span from a cursor to one that has read `x` further covers `x`. -/
theorem slice_spanFrom {c d : Cursor} {x : List UInt8} (ht : d.text = c.text)
    (h : c.ahead = x ++ d.ahead) : (d.spanFrom c.offset).slice c.text.data.toList = x := by
  rw [← extract_of_ahead ht h]
  simp [Span.slice, spanFrom]

theorem slice_skipWhile (p : UInt8 → Bool) (c : Cursor) :
    ((c.skipWhile p).spanFrom c.offset).slice c.text.data.toList = c.ahead.takeWhile p :=
  slice_spanFrom (skipWhile_text p c) (ahead_skipWhile p c)

/-- The byte under a cursor stands at its offset. -/
theorem getD_offset {c : Cursor} {b : UInt8} {bs : List UInt8} (h : c.ahead = b :: bs) :
    c.text.data.toList.getD c.offset 0 = b := by
  rw [List.getD_eq_getElem?_getD, ← List.head?_drop, ← ahead, h]
  rfl

/-- The cursor stands past the blanks that follow offset `m` of its text. -/
def After (c : Cursor) (m : Nat) : Prop :=
  c.ahead = (c.text.data.toList.drop m).dropWhile Ascii.isBlank

theorem after_skipBlanks (c : Cursor) : c.skipBlanks.After c.offset := by
  rw [After, skipBlanks_ahead, skipBlanks_text]
  rfl

theorem After.skipBlanks {c : Cursor} {m : Nat} (h : c.After m) : c.skipBlanks.After m := by
  rw [After, skipBlanks_ahead, skipBlanks_text, h, List.dropWhile_idempotent]

theorem After.le_offset {c : Cursor} {m : Nat} (h : c.After m)
    (hm : m ≤ c.text.data.toList.length) : m ≤ c.offset := by
  have hl : ((c.text.data.toList.drop m).dropWhile Ascii.isBlank).length ≤
      (c.text.data.toList.drop m).length := (List.dropWhile_suffix _).length_le
  rw [← h, List.length_drop] at hl
  have := offset_eq c
  have hs : c.text.size = c.text.data.toList.length := by simp
  omega

end Cursor

namespace Cursor

/-- A token read from `c` to `d` whose bytes are not blanks spans them tightly. -/
theorem token_located {c d : Cursor} {w : List UInt8} (ht : d.text = c.text)
    (h : c.ahead = w ++ d.ahead) (hw : w ≠ []) (hb : ∀ b ∈ w, Ascii.isBlank b = false) :
    (d.spanFrom c.offset).slice c.text.data.toList = w ∧
      (d.spanFrom c.offset).Tight c.text.data.toList := by
  have hslice := slice_spanFrom ht h
  have hfit := d.offset_le_length
  rw [ht] at hfit
  exact ⟨hslice, Span.tight_of_slice hfit hslice hw hb⟩

/-- A number read at a digit is a located, tight leaf over the digits it reads. -/
theorem number_located {c d : Cursor} {n : Spanned Int64} (hd : Ascii.isDigit c.peek = true)
    (h : c.number = .ok (n, d)) : d.text = c.text ∧ n.span = d.spanFrom c.offset ∧
      (Expr.num n.val n.span).Located c.text.data.toList ∧ n.span.Tight c.text.data.toList := by
  obtain ⟨rfl, hv, hs⟩ := number_eq_ok hd h
  have hslice := slice_skipWhile Ascii.isDigit c
  rw [← hs] at hslice
  have hne : c.ahead.takeWhile Ascii.isDigit ≠ [] := fun he => by
    simpa [he] using head_takeWhile (by decide) hd
  have hdig : ∀ b ∈ c.ahead.takeWhile Ascii.isDigit, Ascii.isDigit b = true :=
    fun b hb => List.all_eq_true.mp List.all_takeWhile b hb
  have hval : (Ascii.digitsOf (c.ahead.takeWhile Ascii.isDigit) : Int) = n.val.toInt := by
    rw [hv, Ascii.digitsValue_eq, (takeWhile_eq _ c).1]
    rfl
  have hfit : n.span.stop ≤ c.text.data.toList.length := by
    rw [hs, ← skipWhile_text Ascii.isDigit c]
    exact (skipWhile Ascii.isDigit c).offset_le_length
  have hle : n.span.start ≤ n.span.stop := by
    rw [hs]
    exact offset_le_skipWhile _ c
  refine ⟨skipWhile_text _ _, hs, .of_inTurn (Span.inTurn_nil.mpr hle) hfit ?_,
    Span.tight_of_slice hfit hslice hne fun b hb =>
      Ascii.isBlank_of_isNameByte (Ascii.isNameByte_of_isDigit (hdig b hb))⟩
  rw [Expr.Reads, hslice]
  exact ⟨hne, hdig, hval⟩

/-- A name is read as a tight span over its own bytes. -/
theorem identifier_located {c d : Cursor} {n : Spanned String} (h : c.identifier = .ok (n, d)) :
    d.text = c.text ∧ n.span = d.spanFrom c.offset ∧
      n.span.slice c.text.data.toList = n.val.toUTF8.data.toList ∧ Ascii.isName n.val = true ∧
      n.span.stop ≤ c.text.data.toList.length ∧ n.span.Tight c.text.data.toList := by
  have hname := isName_of_identifier h
  obtain ⟨-, rfl, hn⟩ := identifier_eq_ok h
  have hslice : n.span.slice c.text.data.toList = n.val.toUTF8.data.toList := by
    rw [identifier_bytes h, hn]
    exact slice_skipWhile _ c
  have hfit : n.span.stop ≤ c.text.data.toList.length := by
    rw [hn, ← skipWhile_text Ascii.isNameByte c]
    exact (skipWhile Ascii.isNameByte c).offset_le_length
  have hsolid := Ascii.isName_solid hname
  exact ⟨skipWhile_text _ _, by rw [hn], hslice, hname, hfit,
    Span.tight_of_slice hfit hslice hsolid.1 hsolid.2⟩

end Cursor

namespace Reader

/-- What reading `e` from `r` to `r'` lays in the text: the text stays, every node of `e` is
located in it (and tight when reading is strict), and `e` starts past the blanks at `r`. -/
structure Lays (mode : Mode) (r : Reading) (e : Expr) (r' : Reading) : Prop where
  text : r'.cursor.text = r.cursor.text
  nodes : ∀ x ∈ e.nodes, x.Located r.cursor.text.data.toList ∧
    (mode = .strict → x.span.Tight r.cursor.text.data.toList)
  start : e.span.start = r.cursor.skipBlanks.offset

section Lays

variable {mode : Mode} {r r' : Reading} {e : Expr}

theorem Lays.fits (h : Lays mode r e r') :
    e.span.start ≤ e.span.stop ∧ e.span.stop ≤ r.cursor.text.data.toList.length :=
  (h.nodes e e.mem_nodes_self).1.fits

theorem Lays.stop_le (h : Lays mode r e r') (ha : r'.cursor.After e.span.stop) :
    e.span.stop ≤ r'.cursor.offset :=
  ha.le_offset (by rw [h.text]; exact h.fits.2)

/-- A tree laid from `r` lies in turn from there to wherever reading stopped past it. -/
theorem Lays.inTurn (h : Lays mode r e r') (hs : e.span.stop ≤ r'.cursor.offset) :
    Span.InTurn r.cursor.offset [e.span] r'.cursor.offset := by
  have := Cursor.offset_le_skipBlanks r.cursor
  have := h.fits
  have := h.start
  simp only [Span.inTurn_cons, Span.inTurn_nil]
  omega

/-- Reading that starts past the blanks lays what it would lay from before them. -/
theorem Lays.of_skipBlanks {w : List Diagnostic} (h : Lays mode ⟨r.cursor.skipBlanks, w⟩ e r') :
    Lays mode r e r' :=
  ⟨by rw [h.text, Cursor.skipBlanks_text], by simpa only [Cursor.skipBlanks_text] using h.nodes,
    by rw [h.start, Cursor.skipBlanks_skipBlanks_offset]⟩

end Lays

/-- A closer keeps the text and moves on; a strict one reads the closer itself, after blanks. -/
theorem closer_lays {mode : Mode} {b : Bracket} {openAt : Nat} {r r' : Reading}
    (h : closer mode b openAt r = .ok () r') :
    r'.cursor.text = r.cursor.text ∧ r.cursor.offset ≤ r'.cursor.offset ∧
      (mode = .strict → r'.cursor.offset = r.cursor.skipBlanks.offset + 1 ∧
        r.cursor.text.data.toList.getD r.cursor.skipBlanks.offset 0 = b.closer) := by
  have hle := Cursor.offset_le_skipBlanks r.cursor
  rcases closer_eq_ok.mp h with ⟨hp, rfl⟩ | ⟨-, rfl, rfl⟩
  · -- the closer is the byte under the cursor once the blanks are passed
    have hc := Cursor.ahead_of_peek hp b.closer_symbol.1
    have hc' : r.cursor.skipBlanks.ahead = [b.closer] ++ r.cursor.skipBlanks.advance.ahead := hc
    have hoff := Cursor.offset_of_ahead (Cursor.advance_text _) hc'
    have hat := Cursor.getD_offset hc
    rw [Cursor.skipBlanks_text] at hat
    exact ⟨by simp, by dsimp only; omega, fun _ => ⟨hoff, hat⟩⟩
  · exact ⟨by simp, hle, fun h => nomatch h⟩

/-- A bracketed form read strictly, from a byte that is not blank to its closer, spans a tight
run. -/
theorem closer_tight {b : Bracket} {openAt : Nat} {c : Cursor} {s r' : Reading}
    (hc : closer .strict b openAt s = .ok () r') (hst : s.cursor.text = c.text)
    (hle : c.offset ≤ s.cursor.offset)
    (hob : Ascii.isBlank (c.text.data.toList.getD c.offset 0) = false) :
    (r'.cursor.spanFrom c.offset).Tight c.text.data.toList := by
  obtain ⟨hoff, hat⟩ := (closer_lays hc).2.2 rfl
  have := Cursor.offset_le_skipBlanks s.cursor
  refine ⟨by simp only [Cursor.spanFrom]; omega, hob, ?_⟩
  simp only [Cursor.spanFrom]
  rw [hoff, Nat.add_sub_cancel, ← hst, hat]
  exact b.closer_symbol.2.2

section Grammar

-- each reader lays what it reads when the expression reader it calls does
variable {mode : Mode} {expr : Reader Expr}
  (hx : ∀ {r r' : Reading} {e : Expr}, expr r = .ok e r' →
    Lays mode r e r' ∧ r'.cursor.After e.span.stop)
include hx

/-- The items of an array or the arguments of a call lie in turn from where reading starts to
where it stops. -/
theorem items_lays : ∀ {n : Nat} {acc : Array Expr} {r r' : Reading} {es : List Expr},
    items expr n acc r = .ok es r' → ∃ es₁, es = acc.toList ++ es₁ ∧ es₁ ≠ [] ∧
      r'.cursor.text = r.cursor.text ∧
      (∀ y ∈ es₁, ∀ x ∈ y.nodes, x.Located r.cursor.text.data.toList ∧
        (mode = .strict → x.span.Tight r.cursor.text.data.toList)) ∧
      Span.InTurn r.cursor.offset (es₁.map Expr.span) r'.cursor.offset
  | 0, _, _, _, _, h => by
    obtain ⟨e, s, he, rfl, rfl⟩ := items_zero_eq_ok.mp h
    obtain ⟨hl, ha⟩ := hx he
    refine ⟨[e], by simp, by simp, by simp [hl.text], by simpa using hl.nodes, ?_⟩
    exact (hl.inTurn (hl.stop_le ha)).mono le_rfl (Cursor.offset_le_skipBlanks _)
  | n + 1, _, r, _, _, h => by
    obtain ⟨e, s, he, ⟨c, hc, hi⟩ | ⟨-, rfl, rfl⟩⟩ := items_succ_eq_ok.mp h
    · obtain ⟨hl, ha⟩ := hx he
      obtain ⟨es₁, rfl, hne, ht, hnodes, hturn⟩ := items_lays hi
      obtain ⟨hct, hca⟩ := Cursor.eat?_eq_some hc
      have htext : c.text = r.cursor.text := by rw [hct, Cursor.skipBlanks_text, hl.text]
      -- the comma stands between this item and the next
      have hcomma := Cursor.offset_of_ahead hct hca
      have hskip := Cursor.offset_le_skipBlanks s.cursor
      refine ⟨e :: es₁, by simp, by simp, ht.trans htext, ?_, ?_⟩
      · rintro y (_ | ⟨_, hy⟩)
        · exact hl.nodes
        · simpa only [htext] using hnodes y hy
      · exact (hl.inTurn (hl.stop_le ha)).mono le_rfl (by dsimp only at hcomma ⊢; omega)
          |>.append hturn
    · obtain ⟨hl, ha⟩ := hx he
      refine ⟨[e], by simp, by simp, by simp [hl.text], by simpa using hl.nodes, ?_⟩
      exact (hl.inTurn (hl.stop_le ha)).mono le_rfl (Cursor.offset_le_skipBlanks _)

theorem group_lays {r r' s : Reading} {d : Cursor} {inner : Expr}
    (hd : r.cursor.skipBlanks.eat? "(".toUTF8 = some d) (hi : expr ⟨d, r.warnings⟩ = .ok inner s)
    (hc : closer mode .round r.cursor.skipBlanks.offset s = .ok () r') :
    Lays mode r (.group inner (r'.cursor.spanFrom r.cursor.skipBlanks.offset)) r' := by
  obtain ⟨hl, ha⟩ := hx hi
  obtain ⟨hdt, hda⟩ := Cursor.eat?_eq_some hd
  have hda' : r.cursor.skipBlanks.ahead = [40] ++ d.ahead := hda
  obtain ⟨hct, hco, -⟩ := closer_lays hc
  have htext : d.text = r.cursor.text := by rw [hdt, Cursor.skipBlanks_text]
  have hst : s.cursor.text = r.cursor.text := hl.text.trans htext
  -- the bracket, the inner expression and the closer lie in turn
  have hopen := Cursor.offset_of_ahead hdt hda'
  have hskip := Cursor.offset_le_skipBlanks d
  have hstop := hl.stop_le ha
  have hfits := hl.fits
  have hstart := hl.start
  have hfit := r'.cursor.offset_le_length
  rw [hct, hst] at hfit
  simp only [List.length_singleton] at hopen
  dsimp only at hstart hfits hstop hopen
  refine ⟨hct.trans hst, fun x hx' => ?_, rfl⟩
  rcases Expr.mem_nodes.mp hx' with rfl | ⟨y, hy, hxy⟩
  · refine ⟨.of_inTurn ?_ hfit trivial, fun hm => ?_⟩
    · simp only [Expr.partSpans, Expr.span_group, Cursor.spanFrom, Span.inTurn_cons,
        Span.inTurn_nil]
      omega
    · subst hm
      have hat := Cursor.getD_offset hda'
      rw [Cursor.skipBlanks_text] at hat
      have := closer_tight hc (hst.trans (Cursor.skipBlanks_text _).symm) (by omega)
        (by rw [Cursor.skipBlanks_text, hat]; decide)
      simpa only [Cursor.skipBlanks_text, Expr.span_group] using this
  · obtain rfl := List.mem_singleton.mp hy
    rw [← htext]
    exact hl.nodes x hxy

theorem array_lays {r r' s : Reading} {d : Cursor} {elems : List Expr}
    (hd : r.cursor.skipBlanks.eat? "[".toUTF8 = some d)
    (hi : items expr d.unread #[] ⟨d, r.warnings⟩ = .ok elems s)
    (hc : closer mode .square r.cursor.skipBlanks.offset s = .ok () r') :
    Lays mode r (.array elems (r'.cursor.spanFrom r.cursor.skipBlanks.offset)) r' := by
  obtain ⟨es, hes, hne, hst, hnodes, hturn⟩ := items_lays hx hi
  rw [Array.toList_empty, List.nil_append] at hes
  subst hes
  obtain ⟨hdt, hda⟩ := Cursor.eat?_eq_some hd
  have hda' : r.cursor.skipBlanks.ahead = [91] ++ d.ahead := hda
  obtain ⟨hct, hco, -⟩ := closer_lays hc
  have htext : d.text = r.cursor.text := by rw [hdt, Cursor.skipBlanks_text]
  have hst' : s.cursor.text = r.cursor.text := hst.trans htext
  have hopen := Cursor.offset_of_ahead hdt hda'
  have hfit := r'.cursor.offset_le_length
  rw [hct, hst'] at hfit
  simp only [List.length_singleton] at hopen
  dsimp only at hopen hturn
  refine ⟨hct.trans hst', fun x hx' => ?_, rfl⟩
  rcases Expr.mem_nodes.mp hx' with rfl | ⟨y, hy, hxy⟩
  · refine ⟨.of_inTurn (hturn.mono (by simp only [Expr.span_array, Cursor.spanFrom]; omega) hco)
      hfit hne,
      fun hm => ?_⟩
    subst hm
    have hat := Cursor.getD_offset hda'
    rw [Cursor.skipBlanks_text] at hat
    have := closer_tight hc (hst'.trans (Cursor.skipBlanks_text _).symm)
      (by have := hturn.le; omega) (by rw [Cursor.skipBlanks_text, hat]; decide)
    simpa only [Cursor.skipBlanks_text, Expr.span_array] using this
  · rw [← htext]
    exact hnodes y hy x hxy

theorem call_lays {r r' s : Reading} {name : Spanned String} {d : Cursor} {args : List Expr}
    (hn : r.cursor.skipBlanks.identifier = .ok (name, d)) (hpar : d.peek = 40)
    (ha : if d.advance.skipBlanks.peek = 41 then args = [] ∧ s = ⟨d.advance.skipBlanks, r.warnings⟩
      else items expr d.advance.skipBlanks.unread #[] ⟨d.advance.skipBlanks, r.warnings⟩ =
        .ok args s)
    (hc : closer mode .round d.offset s = .ok () r') :
    Lays mode r (.call name args (r'.cursor.spanFrom r.cursor.skipBlanks.offset)) r' := by
  obtain ⟨hdt, hns, hslice, hname, hnfit, hntight⟩ := Cursor.identifier_located hn
  have htext : d.text = r.cursor.text := by rw [hdt, Cursor.skipBlanks_text]
  have hadv : d.ahead = [40] ++ d.advance.ahead := Cursor.ahead_of_peek hpar (by decide)
  have hadvoff := Cursor.offset_of_ahead (Cursor.advance_text d) hadv
  have hskip := Cursor.offset_le_skipBlanks d.advance
  simp only [List.length_singleton] at hadvoff
  -- the arguments lie in turn after the bracket
  have hargs : s.cursor.text = d.text ∧
      (∀ y ∈ args, ∀ x ∈ y.nodes, x.Located d.text.data.toList ∧
        (mode = .strict → x.span.Tight d.text.data.toList)) ∧
      Span.InTurn d.advance.skipBlanks.offset (args.map Expr.span) s.cursor.offset := by
    split at ha
    · obtain ⟨rfl, rfl⟩ := ha
      exact ⟨by simp, by simp, Span.inTurn_nil.mpr le_rfl⟩
    · obtain ⟨es, hes, -, hst, hnodes, hturn⟩ := items_lays hx ha
      rw [Array.toList_empty, List.nil_append] at hes
      subst hes
      dsimp only at hst hnodes hturn
      rw [Cursor.skipBlanks_text, Cursor.advance_text] at hst hnodes
      exact ⟨hst, hnodes, hturn⟩
  obtain ⟨hst, hnodes, hturn⟩ := hargs
  obtain ⟨hct, hco, -⟩ := closer_lays hc
  have hfit := r'.cursor.offset_le_length
  rw [hct, hst, htext] at hfit
  rw [Cursor.skipBlanks_text] at hslice hnfit hntight
  have hturnle := hturn.le
  have hnlt := hntight.1
  simp only [hns, Cursor.spanFrom] at hslice hnfit hntight hnlt ⊢
  refine ⟨hct.trans (hst.trans htext), fun x hx' => ?_, rfl⟩
  rcases Expr.mem_nodes.mp hx' with rfl | ⟨y, hy, hxy⟩
  · refine ⟨.of_inTurn ?_ hfit ⟨by rw [hns]; exact hslice, hname⟩, fun hm => ?_⟩
    · simp only [Expr.partSpans, Expr.span_call, hns, Cursor.spanFrom, Span.inTurn_cons]
      exact ⟨le_rfl, Nat.le_of_lt hntight.1, hturn.mono (by omega) hco⟩
    · subst hm
      have := closer_tight hc (hst.trans hdt) (by omega)
        (by rw [Cursor.skipBlanks_text]; exact hntight.2.1)
      simpa only [Cursor.skipBlanks_text, Expr.span_call, Cursor.spanFrom] using this
  · rw [← htext]
    exact hnodes y hy x hxy

/-- A primary lays what it reads and stops right after it. -/
theorem primary_lays {r r' : Reading} {e : Expr} (h : primary mode expr r = .ok e r') :
    Lays mode r e r' ∧ e.span.stop = r'.cursor.offset := by
  rcases primary_eq_ok.mp h with ⟨d, inner, s, hd, hi, hc, rfl⟩ |
      ⟨-, d, elems, s, hd, hi, hc, rfl⟩ | ⟨-, -, ho, name, d, args, s, hn, ha, hc, rfl⟩ |
      ⟨-, -, -, hdig, n, d, hn, rfl, rfl⟩ | ⟨-, -, -, -, -, n, d, hn, rfl, rfl⟩
  · exact ⟨group_lays hx hd hi hc, rfl⟩
  · exact ⟨array_lays hx hd hi hc, rfl⟩
  · have hpar : d.peek = 40 := by
      rw [(Cursor.identifier_eq_ok hn).2.1]
      exact ((Cursor.opensCall_iff _).mp ho).2
    exact ⟨call_lays hx hn hpar ha hc, rfl⟩
  · obtain ⟨hdt, hns, hloc, htight⟩ := Cursor.number_located hdig hn
    rw [Cursor.skipBlanks_text] at hloc htight
    refine ⟨⟨hdt.trans (Cursor.skipBlanks_text _), fun x hx' => ?_, by rw [hns]; rfl⟩,
      by rw [hns]; rfl⟩
    rcases Expr.mem_nodes.mp hx' with rfl | ⟨y, hy, -⟩
    · exact ⟨hloc, fun _ => htight⟩
    · cases hy
  · obtain ⟨hdt, hns, hslice, hname, hnfit, htight⟩ := Cursor.identifier_located hn
    rw [Cursor.skipBlanks_text] at hslice hnfit htight
    refine ⟨⟨hdt.trans (Cursor.skipBlanks_text _), fun x hx' => ?_, by rw [hns]; rfl⟩,
      by rw [hns]; rfl⟩
    rcases Expr.mem_nodes.mp hx' with rfl | ⟨y, hy, -⟩
    · exact ⟨.of_inTurn (Span.inTurn_nil.mpr (Nat.le_of_lt htight.1)) hnfit ⟨hslice, hname⟩,
        fun _ => htight⟩
    · cases hy

/-- A unary operand lays what it reads and stops right after it. -/
theorem unary_lays {r r' : Reading} {e : Expr} (h : unary mode expr r = .ok e r') :
    Lays mode r e r' ∧ e.span.stop = r'.cursor.offset := by
  rcases unary_eq_ok.mp h with ⟨op, d, x, hu, hp, rfl⟩ |
      ⟨-, x, s, hp, ⟨op, d, hpo, rfl, rfl⟩ | ⟨-, rfl, rfl⟩⟩
  · -- a prefix operator, then the primary it applies to
    obtain ⟨-, hdt, hda, hos, -⟩ := Cursor.unaryOp?_eq_some hu
    obtain ⟨hslice, hopt⟩ := Cursor.token_located hdt hda op.val.spelling_solid.1
      op.val.spelling_solid.2
    rw [← hos, Cursor.skipBlanks_text] at hslice hopt
    obtain ⟨hl, hstop⟩ := primary_lays hx hp
    have htext : d.text = r.cursor.text := by rw [hdt, Cursor.skipBlanks_text]
    have hskip := Cursor.offset_le_skipBlanks d
    have hfits := hl.fits
    have hstart := hl.start
    have hoplt := hopt.1
    have hfit := r'.cursor.offset_le_length
    rw [hl.text, htext] at hfit
    rw [htext] at hfits
    simp only [hos, Cursor.spanFrom] at hoplt hslice hopt
    dsimp only at hstart hstop hfits
    refine ⟨⟨hl.text.trans htext, fun y hy => ?_, rfl⟩, rfl⟩
    rcases Expr.mem_nodes.mp hy with rfl | ⟨z, hz, hyz⟩
    · have hturn : Span.InTurn r.cursor.skipBlanks.offset [op.span, x.span] r'.cursor.offset := by
        simp only [hos, Cursor.spanFrom, Span.inTurn_cons, Span.inTurn_nil]
        omega
      refine ⟨.of_inTurn (by simpa only [Expr.partSpans, Expr.span_unary, Cursor.spanFrom] using hturn)
        (by simpa only [Expr.span_unary, Cursor.spanFrom] using hfit)
        (by rw [Expr.Reads, hos]; exact hslice), fun hm => ?_⟩
      have hxt := (hl.nodes x x.mem_nodes_self).2 hm
      rw [htext] at hxt
      have := hopt.join hxt (by dsimp only; omega)
      simpa only [Span.join, Expr.span_unary, Cursor.spanFrom, hstop] using this
    · obtain rfl := List.mem_singleton.mp hz
      rw [← htext]
      exact hl.nodes y hyz
  · -- a primary, then a postfix operator
    obtain ⟨hu, -⟩ := Cursor.postfixOp?_eq_some hpo
    obtain ⟨-, hdt, hda, hos, -⟩ := Cursor.unaryOp?_eq_some hu
    obtain ⟨hslice, hopt⟩ := Cursor.token_located hdt hda op.val.spelling_solid.1
      op.val.spelling_solid.2
    rw [← hos] at hslice hopt
    obtain ⟨hl, hstop⟩ := primary_lays hx hp
    have hst : s.cursor.text = r.cursor.text := hl.text.trans (Cursor.skipBlanks_text _)
    have hfits := hl.fits
    have hstart := hl.start
    have hoplt := hopt.1
    have hfit := d.offset_le_length
    rw [hdt, hst] at hfit
    rw [hst] at hslice hopt
    rw [Cursor.skipBlanks_text] at hfits
    rw [Cursor.skipBlanks_skipBlanks_offset] at hstart
    simp only [hos, Cursor.spanFrom] at hoplt hslice hopt
    refine ⟨⟨hdt.trans hst, fun y hy => ?_, rfl⟩, rfl⟩
    rcases Expr.mem_nodes.mp hy with rfl | ⟨z, hz, hyz⟩
    · have hturn : Span.InTurn r.cursor.skipBlanks.offset [x.span, op.span] d.offset := by
        simp only [hos, Cursor.spanFrom, Span.inTurn_cons, Span.inTurn_nil]
        omega
      refine ⟨.of_inTurn (by simpa only [Expr.partSpans, Expr.span_unary, Cursor.spanFrom] using hturn)
        (by simpa only [Expr.span_unary, Cursor.spanFrom] using hfit)
        (by rw [Expr.Reads, hos]; exact hslice), fun hm => ?_⟩
      have hxt := (hl.nodes x x.mem_nodes_self).2 hm
      rw [Cursor.skipBlanks_text] at hxt
      have := hxt.join hopt (by dsimp only; omega)
      simpa only [Span.join, Expr.span_unary, Cursor.spanFrom, hstart] using this
    · obtain rfl := List.mem_singleton.mp hz
      have := hl.nodes y hyz
      rwa [Cursor.skipBlanks_text] at this
  · -- a primary alone
    obtain ⟨hl, hstop⟩ := primary_lays hx hp
    exact ⟨hl.of_skipBlanks, hstop⟩

/-- The operators and operands that follow an operand `x` lie in turn from the end of `x` to the
end of the last operand, and reading stops past the blanks after it. -/
theorem links_lays : ∀ {n : Nat} {acc : Array Link} {r r' : Reading} {ls : List Link} {x : Expr},
    links (unary mode expr) n acc r = .ok ls r' → r.cursor.After x.span.stop →
    x.span.stop ≤ r.cursor.text.data.toList.length →
    ∃ ls₁, ls = acc.toList ++ ls₁ ∧ r'.cursor.text = r.cursor.text ∧
      (∀ l ∈ ls₁, l.op.span.slice r.cursor.text.data.toList = l.op.val.spelling.toUTF8.data.toList) ∧
      (∀ l ∈ ls₁, ∀ y ∈ l.operand.nodes, y.Located r.cursor.text.data.toList ∧
        (mode = .strict → y.span.Tight r.cursor.text.data.toList)) ∧
      Span.InTurn x.span.stop (ls₁.flatMap fun l => [l.op.span, l.operand.span])
        (Chain.mk x ls₁).last.span.stop ∧
      (Chain.mk x ls₁).last.span.stop ≤ r.cursor.text.data.toList.length ∧
      r'.cursor.After (Chain.mk x ls₁).last.span.stop
  | 0, _, _, _, _, _, h, ha, hle => by
    obtain ⟨rfl, rfl⟩ := links_zero_eq_ok.mp h
    exact ⟨[], by simp, rfl, by simp, by simp, Span.inTurn_nil.mpr le_rfl, hle, ha⟩
  | n + 1, _, r, _, _, x, h, ha, hle => by
    rcases links_succ_eq_ok.mp h with ⟨-, rfl, rfl⟩ | ⟨op, d, u, s, hb, hu, hl⟩
    · exact ⟨[], by simp, rfl, by simp, by simp, Span.inTurn_nil.mpr le_rfl, hle, ha⟩
    · obtain ⟨-, hdt, hda, hos, -⟩ := Cursor.binaryOp?_eq_some hb
      obtain ⟨hslice, hopt⟩ := Cursor.token_located hdt hda op.val.spelling_solid.1
        op.val.spelling_solid.2
      rw [← hos] at hslice hopt
      obtain ⟨hul, hus⟩ := unary_lays hx hu
      have hst : s.cursor.skipBlanks.text = r.cursor.text := by
        rw [Cursor.skipBlanks_text, hul.text]
        exact hdt
      have hufits := hul.fits
      dsimp only at hufits hus
      rw [hdt] at hufits
      have hafter : s.cursor.skipBlanks.After u.span.stop := hus ▸ Cursor.after_skipBlanks _
      obtain ⟨ls₁, hls, hlt, hops, hnodes, hturn, hlast, hend⟩ :=
        links_lays hl hafter (by rw [hst]; exact hufits.2)
      dsimp only at hlt hops hnodes hlast
      rw [hst] at hlt hops hnodes hlast
      have hx := ha.le_offset hle
      have hskip := Cursor.offset_le_skipBlanks d
      have hustart := hul.start
      have hoplt := hopt.1
      simp only [hos, Cursor.spanFrom] at hoplt
      dsimp only at hustart
      refine ⟨⟨op, u⟩ :: ls₁, by simp [hls], hlt, ?_, ?_, ?_, by rwa [Chain.last_cons],
        by rwa [Chain.last_cons]⟩
      · rintro l (_ | ⟨_, hl'⟩)
        · exact hslice
        · exact hops l hl'
      · rintro l (_ | ⟨_, hl'⟩)
        · rw [← hdt]
          exact hul.nodes
        · exact hnodes l hl'
      · -- the operator, then its operand, then the rest in turn
        rw [Chain.last_cons, List.flatMap_cons]
        simp only [List.cons_append, List.nil_append, Span.inTurn_cons, hos, Cursor.spanFrom]
        exact ⟨hx, Nat.le_of_lt hoplt, by omega, hufits.1, hturn⟩

/-- An expression lays what it reads, and reading stops past the blanks after it. -/
theorem level_lays {r r' : Reading} {e : Expr} (h : level mode expr r = .ok e r') :
    Lays mode r e r' ∧ r'.cursor.After e.span.stop := by
  obtain ⟨first, s, ls, hf, hl, ha, hsp⟩ := level_spine h
  obtain ⟨hfl, hfs⟩ := unary_lays hx hf
  have hst : s.cursor.skipBlanks.text = r.cursor.text := by rw [Cursor.skipBlanks_text, hfl.text]
  have hafter : s.cursor.skipBlanks.After first.span.stop := hfs ▸ Cursor.after_skipBlanks _
  obtain ⟨ls₁, hls, hlt, hops, hnodes, hturn, hlast, hend⟩ :=
    links_lays hx hl hafter (by rw [hst]; exact hfl.fits.2)
  rw [Array.toList_empty, List.nil_append] at hls
  subst hls
  dsimp only at hlt hops hnodes hlast
  rw [hst] at hlt hops hnodes hlast
  -- assembly joins operands that are not binary themselves
  obtain ⟨ls₂, hls₂, hnb⟩ := links_each unary_isBinary hl
  rw [Array.toList_empty, List.nil_append] at hls₂
  subst hls₂
  have hj : e.Joined := by
    refine Chain.assemble_joined ?_ ha
    rintro y (_ | ⟨_, hy⟩)
    · exact Expr.joined_of_isBinary (unary_isBinary hf)
    · obtain ⟨l, hl', rfl⟩ := List.mem_map.mp hy
      exact Expr.joined_of_isBinary (hnb l hl')
  have hspan := Expr.span_of_joined hj
  rw [hsp] at hspan
  have hturn' : Span.InTurn first.span.start e.spine.spans (Chain.mk first ls).last.span.stop := by
    rw [hsp]
    exact Span.inTurn_cons.mpr ⟨le_rfl, hfl.fits.1, hturn⟩
  have hnodes' := Expr.lays_of_spine hj hturn' hlast (by rw [hsp]; exact hops) (by
    rw [hsp]
    rintro y (_ | ⟨_, hy⟩)
    · exact hfl.nodes
    · obtain ⟨l, hl', rfl⟩ := List.mem_map.mp hy
      exact hnodes l hl')
  exact ⟨⟨hlt, hnodes', by rw [hspan]; exact hfl.start⟩, by rw [hspan]; exact hend⟩

end Grammar

theorem expression_lays {mode : Mode} : ∀ {b : Nat} {r r' : Reading} {e : Expr},
    expression mode b r = .ok e r' → Lays mode r e r' ∧ r'.cursor.After e.span.stop
  | 0, _, _, _, h => absurd h expression_zero_ne_ok
  | _ + 1, _, _, _, h => level_lays (fun h' => expression_lays h') h

/-- A whole text lays its expression, and in strict mode only blanks follow it. -/
theorem document_lays {mode : Mode} {b : Nat} {r r' : Reading} {e : Expr}
    (h : document mode b r = .ok e r') :
    Lays mode r e r' ∧
      (mode = .strict → ∀ x ∈ r.cursor.text.data.toList.drop e.span.stop, Ascii.isBlank x = true) := by
  obtain ⟨s, hs, hend⟩ := document_eq_ok.mp h
  obtain ⟨hl, ha⟩ := expression_lays hs
  have hr' : r'.cursor = s.cursor.skipBlanks := by
    rcases hend with ⟨-, rfl⟩ | ⟨-, -, rfl⟩ <;> rfl
  refine ⟨⟨by rw [hr', Cursor.skipBlanks_text, hl.text], hl.nodes, hl.start⟩, fun hm => ?_⟩
  rcases hend with ⟨hat, -⟩ | ⟨-, hm', -⟩
  · rw [Cursor.After] at ha
    rw [Cursor.atEnd_iff, Cursor.skipBlanks_ahead, ha, List.dropWhile_idempotent, hl.text] at hat
    exact List.dropWhile_eq_nil_iff.mp hat
  · rw [hm] at hm'
    cases hm'

end Reader

/-- A text whose bytes from `m` on are blanks, after a byte at `m - 1` that is not, ends at `m`
once its trailing blanks are dropped. -/
theorem length_rdropWhile_blank {L : List UInt8} {m : Nat} (hm : 0 < m) (hmL : m ≤ L.length)
    (hlast : Ascii.isBlank (L.getD (m - 1) 0) = false)
    (hrest : ∀ b ∈ L.drop m, Ascii.isBlank b = true) : (L.rdropWhile Ascii.isBlank).length = m := by
  have hdrop : L.rdropWhile Ascii.isBlank = (L.take m).rdropWhile Ascii.isBlank := by
    conv_lhs => rw [← List.take_append_drop m L]
    simp only [List.rdropWhile, List.reverse_append]
    rw [List.dropWhile_append_of_pos fun b hb => hrest b (List.mem_reverse.mp hb)]
  have hkeep : (L.take m).rdropWhile Ascii.isBlank = L.take m := by
    rw [List.rdropWhile_eq_self_iff]
    intro hne
    rw [List.getLast_take, List.getElem?_eq_getElem (by omega), Option.getD_some]
    rw [List.getD_eq_getElem?_getD, List.getElem?_eq_getElem (by omega), Option.getD_some] at hlast
    simp [hlast]
  rw [hdrop, hkeep, List.length_take]
  omega

/-- Every tree that reading returns lies in the text as its nodes say: each node is `Located`
(its span fits the text, its parts lie inside it in order, a binary node spans from its left
operand to its right one, an array has an item, and numbers, names and operators cover exactly
their own bytes). A strict reading also leaves no blank at either end of any span, so the root
spans the text less its leading and trailing blanks. -/
theorem parse_spans {text : ByteArray} {mode : Mode} {e : Expr}
    (h : (Expr.parse text mode).result = .ok e) :
    (∀ x ∈ e.nodes, x.Located text.data.toList) ∧
    (mode = .strict →
      (∀ x ∈ e.nodes, ∀ s ∈ x.span :: x.partSpans, s.Tight text.data.toList) ∧
      e.span = ⟨(text.data.toList.takeWhile Ascii.isBlank).length,
        (text.data.toList.rdropWhile Ascii.isBlank).length⟩) := by
  obtain ⟨r', hd⟩ := parseWithin_eq_ok.mp h
  obtain ⟨hl, hrest⟩ := Reader.document_lays hd
  have hnodes : ∀ x ∈ e.nodes, x.Located text.data.toList ∧
      (mode = .strict → x.span.Tight text.data.toList) := hl.nodes
  refine ⟨fun x hx => (hnodes x hx).1, fun hm => ⟨fun x hx s hs => ?_, ?_⟩⟩
  · -- a part is a subtree, itself a node, or an operator or a name
    rcases List.mem_cons.mp hs with rfl | hs
    · exact (hnodes x hx).2 hm
    · refine (hnodes x hx).1.parts_tight (fun c hc => ?_) s hs
      exact (hnodes c (Expr.nodes_trans hx (Expr.mem_nodes_of_child hc c.mem_nodes_self))).2 hm
  · -- the root starts past the leading blanks and ends where only blanks follow
    have hstart : e.span.start = (text.data.toList.takeWhile Ascii.isBlank).length := by
      rw [hl.start, Cursor.offset_of_ahead (Cursor.skipBlanks_text _)
        (Cursor.ahead_skipWhile Ascii.isBlank (Cursor.start text))]
      simp [Cursor.start, Cursor.ahead]
    obtain ⟨hpos, -, hlast⟩ := (hnodes e e.mem_nodes_self).2 hm
    have hfit := (hnodes e e.mem_nodes_self).1.fits
    rw [← hstart, length_rdropWhile_blank (by omega) hfit.2 hlast (hrest hm)]

theorem parse_spans_padded :
    (Expr.binary (.var "x" ⟨1, 2⟩) ⟨.add, ⟨2, 3⟩⟩ (.num 1 ⟨3, 4⟩) ⟨1, 4⟩).span =
      ⟨(" x+1 ".toUTF8.data.toList.takeWhile Ascii.isBlank).length,
        (" x+1 ".toUTF8.data.toList.rdropWhile Ascii.isBlank).length⟩ :=
  ((parse_spans (show (Expr.parse " x+1 ".toUTF8 .strict).result =
    .ok (Expr.binary (.var "x" ⟨1, 2⟩) ⟨.add, ⟨2, 3⟩⟩ (.num 1 ⟨3, 4⟩) ⟨1, 4⟩) by rfl)).2 rfl).2

end Formula
