import Formula.Markup.Basic
import Formula.Proofs.Canonical
import Mathlib.Tactic.TFAE

/-! What canonical text and markup keep of a tree: on trees a reading returns, equal texts, equal
markup and equal shapes without groups coincide (`parse_renderings_agree`). -/

namespace Formula

namespace Markup

namespace Element

/-- Whether an element is an operator leaf. -/
def isGlyph (x : Element) : Bool := x.kind == .operator

theorem beq_text_iff {t t' : ByteArray} : (t == t') = true ↔ t = t' := by
  show (t.data == t'.data) = true ↔ t = t'
  rw [beq_iff_eq]
  exact ⟨fun h => ByteArray.ext h, fun h => h ▸ rfl⟩

mutual

/-- Elements that agree in kind, text and children are equal. -/
theorem eq_of_same : ∀ {x y : Element}, same x y = true → x = y
  | ⟨k, t, cs⟩, ⟨k', t', cs'⟩, h => by
    simp only [same, Bool.and_eq_true, beq_iff_eq, beq_text_iff] at h
    obtain ⟨⟨rfl, rfl⟩, hcs⟩ := h
    rw [eq_of_sameList hcs]

theorem eq_of_sameList : ∀ {xs ys : List Element}, sameList xs ys = true → xs = ys
  | [], [], _ => rfl
  | x :: xs, y :: ys, h => by
    simp only [sameList, Bool.and_eq_true] at h
    rw [eq_of_same h.1, eq_of_sameList h.2]
  | [], _ :: _, h | _ :: _, [], h => by simp [sameList] at h

end

mutual

theorem same_self : ∀ x : Element, same x x = true
  | ⟨k, t, cs⟩ => by simp [same, beq_text_iff, sameList_self cs]

theorem sameList_self : ∀ xs : List Element, sameList xs xs = true
  | [] => rfl
  | x :: xs => by simp [sameList, same_self x, sameList_self xs]

end

/-- Agreement of elements is equality. -/
theorem same_iff {x y : Element} : same x y = true ↔ x = y :=
  ⟨eq_of_same, fun h => h ▸ same_self x⟩

end Element

/-- The unary operator spelt by a text. -/
def unaryOfText (t : ByteArray) : Option UnaryOp :=
  UnaryOp.all.find? (·.spelling.toUTF8 == t)

/-- The binary operator that a row shows by a glyph; quotients and powers are not shown in rows. -/
def binaryOfGlyph (t : ByteArray) : Option BinaryOp :=
  BinaryOp.all.find? fun op => op != .div && op != .pow && op.glyph.toUTF8 == t

mutual

/-- The tree that an element shows, with its spans set to `⟨0, 0⟩`. -/
def toExpr : Element → Option Expr
  | ⟨.row, _, cs⟩ => ofRow cs
  | ⟨.fraction, _, [l, r]⟩ =>
    (toExpr l).bind fun x => (toExpr r).map fun y => .binary x ⟨.div, ⟨0, 0⟩⟩ y ⟨0, 0⟩
  | ⟨.superscript, _, [l, r]⟩ =>
    (toExpr l).bind fun x => (toExpr r).map fun y => .binary x ⟨.pow, ⟨0, 0⟩⟩ y ⟨0, 0⟩
  | ⟨.number, t, _⟩ => some (.num (Int64.ofNat (Ascii.digitsOf t.data.toList)) ⟨0, 0⟩)
  | ⟨.identifier, t, _⟩ => some (.var (Canonical.nameOf t.data.toList) ⟨0, 0⟩)
  | _ => none

/-- The tree that a row shows. An operator leaf first opens an array when it is `[` and stands
before its operand otherwise; an operator leaf second stands after its operand or between two;
a name first with no operator leaf after it is a call. -/
def ofRow : List Element → Option Expr
  | [] => none
  | x :: rest =>
    if x.isGlyph then
      if x.text == "[".toUTF8 then (readItems rest).map (.array · ⟨0, 0⟩)
      else match rest with
        | [y] => (unaryOfText x.text).bind fun op =>
          (toExpr y).map (.unary ⟨op, ⟨0, 0⟩⟩ .pre · ⟨0, 0⟩)
        | _ => none
    else
      let call := if x.kind == .identifier then
          (toExprList rest).map (.call ⟨Canonical.nameOf x.text.data.toList, ⟨0, 0⟩⟩ · ⟨0, 0⟩)
        else none
      match rest with
      | [g] =>
        if g.isGlyph then (unaryOfText g.text).bind fun op =>
          (toExpr x).map (.unary ⟨op, ⟨0, 0⟩⟩ .post · ⟨0, 0⟩)
        else call
      | [g, r] =>
        if g.isGlyph then (binaryOfGlyph g.text).bind fun op =>
          (toExpr x).bind fun l => (toExpr r).map (.binary l ⟨op, ⟨0, 0⟩⟩ · ⟨0, 0⟩)
        else call
      | _ => call

/-- The items of an array row after its `[`: trees separated by `,` leaves, up to a last `]`. -/
def readItems : List Element → Option (List Expr)
  | [] => none
  | [g] => if g.isGlyph && g.text == "]".toUTF8 then some [] else none
  | x :: g :: rest =>
    if g.isGlyph && g.text == "]".toUTF8 && rest.isEmpty then (toExpr x).map ([·])
    else if g.isGlyph && g.text == ",".toUTF8 then
      (toExpr x).bind fun e => (readItems rest).map (e :: ·)
    else none

/-- The trees that a list of elements shows. -/
def toExprList : List Element → Option (List Expr)
  | [] => some []
  | x :: xs => (toExpr x).bind fun e => (toExprList xs).map (e :: ·)

end

/-! ### Reading each form back -/

theorem isGlyph_ofExpr : ∀ e : Expr, (ofExpr e).isGlyph = false
  | .unary _ .pre _ _ | .unary _ .post _ _ | .array .. | .call .. | .num .. | .var .. => rfl
  | .binary _ ⟨o, _⟩ _ _ => by cases o <;> rfl
  | .group x _ => isGlyph_ofExpr x

theorem ofExpr_div {l r : Expr} {op : Spanned BinaryOp} {s : Span} (h : op.val = .div) :
    ofExpr (.binary l op r s) = ⟨.fraction, ByteArray.empty, [ofExpr l, ofExpr r]⟩ := by
  obtain ⟨o, so⟩ := op
  subst h
  rfl

theorem ofExpr_pow {l r : Expr} {op : Spanned BinaryOp} {s : Span} (h : op.val = .pow) :
    ofExpr (.binary l op r s) = ⟨.superscript, ByteArray.empty, [ofExpr l, ofExpr r]⟩ := by
  obtain ⟨o, so⟩ := op
  subst h
  rfl

theorem ofExpr_row_binary {l r : Expr} {op : Spanned BinaryOp} {s : Span} (hdiv : op.val ≠ .div)
    (hpow : op.val ≠ .pow) :
    ofExpr (.binary l op r s) = Element.row [ofExpr l, Element.glyph op.val.glyph, ofExpr r] := by
  obtain ⟨o, so⟩ := op
  cases o
  case div => exact absurd rfl hdiv
  case pow => exact absurd rfl hpow
  all_goals rfl

theorem ofRow_array (rest : List Element) :
    ofRow (Element.glyph "[" :: rest) = (readItems rest).map (.array · ⟨0, 0⟩) := rfl

theorem ofRow_unary_pre (op : UnaryOp) (y : Element) :
    ofRow [Element.glyph op.spelling, y] = (toExpr y).map (.unary ⟨op, ⟨0, 0⟩⟩ .pre · ⟨0, 0⟩) := by
  cases op <;> rfl

theorem ofRow_unary_post {x : Element} (hx : x.isGlyph = false) (op : UnaryOp) :
    ofRow [x, Element.glyph op.spelling] = (toExpr x).map (.unary ⟨op, ⟨0, 0⟩⟩ .post · ⟨0, 0⟩) := by
  simp only [ofRow, hx, Bool.false_eq_true, if_false]
  cases op <;> rfl

theorem ofRow_binary {l r : Element} (hl : l.isGlyph = false) {op : BinaryOp} (hdiv : op ≠ .div)
    (hpow : op ≠ .pow) :
    ofRow [l, Element.glyph op.glyph, r] =
      (toExpr l).bind fun x => (toExpr r).map (.binary x ⟨op, ⟨0, 0⟩⟩ · ⟨0, 0⟩) := by
  simp only [ofRow, hl, Bool.false_eq_true, if_false]
  cases op
  case div => exact absurd rfl hdiv
  case pow => exact absurd rfl hpow
  all_goals rfl

/-- A name leaf followed by no operator leaf is a call. -/
theorem ofRow_call (name : String) {rest : List Element}
    (hrest : ∀ g ∈ rest.head?, g.isGlyph = false) :
    ofRow (Element.leaf .identifier name :: rest) =
      (toExprList rest).map (.call ⟨Canonical.nameOf name.toUTF8.data.toList, ⟨0, 0⟩⟩ · ⟨0, 0⟩) := by
  have hname : (Element.leaf .identifier name).isGlyph = false := rfl
  -- the call is read whatever the length of the row, once no operator leaf comes second
  rcases rest with _ | ⟨g, _ | ⟨r, _ | ⟨y, ys⟩⟩⟩
  · rfl
  · simp only [ofRow, hname, hrest g rfl, Bool.false_eq_true, if_false]
    rfl
  · simp only [ofRow, hname, hrest g rfl, Bool.false_eq_true, if_false]
    rfl
  · simp only [ofRow, hname, Bool.false_eq_true, if_false]
    rfl

theorem readItems_sep (x : Element) (rest : List Element) :
    readItems (x :: Element.glyph "," :: rest) =
      (toExpr x).bind fun e => (readItems rest).map (e :: ·) := rfl

theorem ofExprList_head (es : List Expr) : ∀ g ∈ (ofExprList es).head?, g.isGlyph = false := by
  cases es with
  | nil => simp [ofExprList]
  | cons e es => simpa [ofExprList] using isGlyph_ofExpr e

/-! ### The markup reads back -/

mutual

/-- The markup of a spelt tree reads back as the tree without its groups and spans. -/
theorem toExpr_ofExpr : ∀ {e : Expr}, e.spelt = true → toExpr (ofExpr e) = some e.ungroup.erase
  | .unary op .pre x s, h => by
    have hxs : x.spelt = true := h
    show ofRow [Element.glyph op.val.spelling, ofExpr x] = _
    rw [ofRow_unary_pre, toExpr_ofExpr hxs]
    rfl
  | .unary op .post x s, h => by
    have hxs : x.spelt = true := h
    show ofRow [ofExpr x, Element.glyph op.val.spelling] = _
    rw [ofRow_unary_post (isGlyph_ofExpr x), toExpr_ofExpr hxs]
    rfl
  | .binary l op r s, h => by
    simp only [Expr.spelt, Bool.and_eq_true] at h
    have hl := toExpr_ofExpr h.1
    have hr := toExpr_ofExpr h.2
    -- quotients and powers are shown as fractions and superscripts, every other operator in a row
    by_cases hdiv : op.val = .div
    · rw [ofExpr_div hdiv]
      simp only [toExpr, hl, hr, Option.bind_some, Option.map_some, Expr.ungroup, Expr.erase, hdiv]
    by_cases hpow : op.val = .pow
    · rw [ofExpr_pow hpow]
      simp only [toExpr, hl, hr, Option.bind_some, Option.map_some, Expr.ungroup, Expr.erase, hpow]
    rw [ofExpr_row_binary hdiv hpow]
    show ofRow [ofExpr l, Element.glyph op.val.glyph, ofExpr r] = _
    rw [ofRow_binary (isGlyph_ofExpr l) hdiv hpow, hl, hr]
    rfl
  | .group x s, h => by
    have hxs : x.spelt = true := h
    show toExpr (ofExpr x) = some x.ungroup.erase
    exact toExpr_ofExpr hxs
  | .array es s, h => by
    have hes : readItems (ofItems es ++ [Element.glyph "]"]) =
        some (Expr.eraseList (Expr.ungroupList es)) := readItems_ofItems h
    show ofRow (Element.glyph "[" :: (ofItems es ++ [Element.glyph "]"])) = _
    rw [ofRow_array, hes]
    rfl
  | .call name as s, h => by
    simp only [Expr.spelt, Bool.and_eq_true] at h
    have has := toExprList_ofExprList h.2
    show ofRow (Element.leaf .identifier name.val :: ofExprList as) = _
    rw [ofRow_call name.val (ofExprList_head as), has, Canonical.nameOf_bytes h.1]
    rfl
  | .num v s, h => by
    -- a number without a sign is shown as its decimal numeral
    have hv : 0 ≤ v.toInt := of_decide_eq_true h
    show some (Expr.num (Int64.ofNat (Ascii.digitsOf (Ascii.intDecimal v.toInt).toUTF8.data.toList))
      ⟨0, 0⟩) = _
    rw [Ascii.intDecimal, if_neg (by omega), Ascii.digitsOf, Ascii.decimal_value,
      Canonical.ofNat_natAbs_toInt hv]
    rfl
  | .var name s, h => by
    show some (Expr.var (Canonical.nameOf name.toUTF8.data.toList) ⟨0, 0⟩) = _
    rw [Canonical.nameOf_bytes h]
    rfl

theorem toExprList_ofExprList : ∀ {es : List Expr}, Expr.speltList es = true →
    toExprList (ofExprList es) = some (Expr.eraseList (Expr.ungroupList es))
  | [], _ => rfl
  | e :: es, h => by
    rw [Expr.speltList, Bool.and_eq_true] at h
    show ((toExpr (ofExpr e)).bind fun x => (toExprList (ofExprList es)).map (x :: ·)) = _
    rw [toExpr_ofExpr h.1, toExprList_ofExprList h.2]
    rfl

theorem readItems_ofItems : ∀ {es : List Expr}, Expr.speltList es = true →
    readItems (ofItems es ++ [Element.glyph "]"]) = some (Expr.eraseList (Expr.ungroupList es))
  | [], _ => rfl
  | [e], h => by
    have he : e.spelt = true := by simpa [Expr.speltList] using h
    show (toExpr (ofExpr e)).map ([·]) = _
    rw [toExpr_ofExpr he]
    rfl
  | e :: f :: es, h => by
    rw [Expr.speltList, Bool.and_eq_true] at h
    show readItems (ofExpr e :: Element.glyph "," :: (ofItems (f :: es) ++ [Element.glyph "]"])) = _
    rw [readItems_sep, toExpr_ofExpr h.1, readItems_ofItems h.2]
    rfl

end

/-! ### What the markup forgets -/

mutual

/-- Trees of the same shape have the same markup. -/
theorem ofExpr_congr : ∀ {e e' : Expr}, e.sameShape e' = true → ofExpr e = ofExpr e'
  | .unary op a x _, e', h => by
    cases e' <;> simp only [Expr.sameShape, Bool.and_eq_true, Bool.false_eq_true, beq_iff_eq] at h
    obtain ⟨⟨ho, rfl⟩, hx⟩ := h
    cases a <;> simp [ofExpr, ho, ofExpr_congr hx]
  | .binary l _ r _, e', h => by
    cases e' <;> simp only [Expr.sameShape, Bool.and_eq_true, Bool.false_eq_true, beq_iff_eq] at h
    obtain ⟨⟨ho, hl⟩, hr⟩ := h
    simp [ofExpr, ho, ofExpr_congr hl, ofExpr_congr hr]
  | .group x _, e', h => by
    cases e' <;> simp only [Expr.sameShape, Bool.false_eq_true] at h
    simp [ofExpr, ofExpr_congr h]
  | .array es _, e', h => by
    cases e' <;> simp only [Expr.sameShape, Bool.false_eq_true] at h
    simp [ofExpr, ofItems_congr h]
  | .call _ as _, e', h => by
    cases e' <;> simp only [Expr.sameShape, Bool.and_eq_true, Bool.false_eq_true, beq_iff_eq] at h
    simp [ofExpr, h.1, ofExprList_congr h.2]
  | .num .., e', h | .var .., e', h => by
    cases e' <;> simp_all [Expr.sameShape, ofExpr]

theorem ofExprList_congr : ∀ {es es' : List Expr}, Expr.sameShapeList es es' = true →
    ofExprList es = ofExprList es'
  | [], es', h => by cases es' <;> simp_all [Expr.sameShapeList]
  | e :: es, es', h => by
    cases es' <;> simp only [Expr.sameShapeList, Bool.and_eq_true, Bool.false_eq_true] at h
    simp [ofExprList, ofExpr_congr h.1, ofExprList_congr h.2]

theorem ofItems_congr : ∀ {es es' : List Expr}, Expr.sameShapeList es es' = true →
    ofItems es = ofItems es'
  | [], es', h => by cases es' <;> simp_all [Expr.sameShapeList]
  | [e], es', h => by
    rcases es' with _ | ⟨e', _ | ⟨e'', es'⟩⟩ <;>
      simp only [Expr.sameShapeList, Bool.and_eq_true, Bool.false_eq_true, and_false] at h
    simp [ofItems, ofExpr_congr h.1]
  | e :: f :: es, es', h => by
    rcases es' with _ | ⟨e', _ | ⟨f', es'⟩⟩ <;>
      simp only [Expr.sameShapeList, Bool.and_eq_true, Bool.false_eq_true, and_false] at h
    have hrest : Expr.sameShapeList (f :: es) (f' :: es') = true := by
      simp [Expr.sameShapeList, h.2.1, h.2.2]
    simp [ofItems, ofExpr_congr h.1, ofItems_congr hrest]

end

mutual

/-- Groups do not show in the markup. -/
theorem ofExpr_ungroup : ∀ e : Expr, ofExpr e.ungroup = ofExpr e
  | .unary op .pre x _ | .unary op .post x _ => by
    simp [Expr.ungroup, ofExpr, ofExpr_ungroup x]
  | .binary l _ r _ => by simp [Expr.ungroup, ofExpr, ofExpr_ungroup l, ofExpr_ungroup r]
  | .group x _ => by simp [Expr.ungroup, ofExpr, ofExpr_ungroup x]
  | .array es _ => by simp [Expr.ungroup, ofExpr, ofItems_ungroup es]
  | .call _ as _ => by simp [Expr.ungroup, ofExpr, ofExprList_ungroup as]
  | .num .. | .var .. => rfl

theorem ofExprList_ungroup : ∀ es : List Expr, ofExprList (Expr.ungroupList es) = ofExprList es
  | [] => rfl
  | e :: es => by simp [Expr.ungroupList, ofExprList, ofExpr_ungroup e, ofExprList_ungroup es]

theorem ofItems_ungroup : ∀ es : List Expr, ofItems (Expr.ungroupList es) = ofItems es
  | [] => rfl
  | [e] => by simp [Expr.ungroupList, ofItems, ofExpr_ungroup e]
  | e :: f :: es => by
    have := ofItems_ungroup (f :: es)
    simp only [Expr.ungroupList] at this ⊢
    simp [ofItems, ofExpr_ungroup e, this]

end

/-- On spelt trees the markup is exactly as fine as the shape without groups: reading the markup
back recovers that shape. -/
theorem ofExpr_eq_iff {a b : Expr} (ha : a.spelt = true) (hb : b.spelt = true) :
    ofExpr a = ofExpr b ↔ a.ungroup.sameShape b.ungroup = true := by
  constructor
  · intro h
    have hread := congrArg toExpr h
    rw [toExpr_ofExpr ha, toExpr_ofExpr hb, Option.some.injEq] at hread
    exact Expr.sameShape_of_erase hread
  · intro h
    rw [← ofExpr_ungroup a, ← ofExpr_ungroup b, ofExpr_congr h]

end Markup

/-- For trees read from text, in either mode, equal canonical texts, equal markup and equal shapes
once groups are dropped are one condition: each rendering determines the tree up to its groups
and spans, and so the two renderings determine each other. -/
theorem parse_renderings_agree {a b : ByteArray} {ma mb : Mode} {ta tb : Expr}
    (ha : (Expr.parse a ma).result = .ok ta) (hb : (Expr.parse b mb).result = .ok tb) :
    [ta.canonical = tb.canonical, (Markup.ofExpr ta).same (Markup.ofExpr tb) = true,
      ta.ungroup.sameShape tb.ungroup = true].TFAE := by
  -- every tree a reading returns has names for names and numbers without a sign
  have hsa : ta.spelt = true := (parseWithin_sound ha).1.spelt
  have hsb : tb.spelt = true := (parseWithin_sound hb).1.spelt
  tfae_have 1 ↔ 3 := Expr.canonical_eq_iff hsa hsb
  tfae_have 2 ↔ 3 := by
    rw [Markup.Element.same_iff]
    exact Markup.ofExpr_eq_iff hsa hsb
  tfae_finish

/-- `(x)` read strictly and `x` read leniently render alike and have one shape without groups. -/
theorem parse_renderings_agree_grouped :
    [(Expr.group (.var "x" ⟨1, 2⟩) ⟨0, 3⟩).canonical = (Expr.var "x" ⟨0, 1⟩).canonical,
      (Markup.ofExpr (.group (.var "x" ⟨1, 2⟩) ⟨0, 3⟩)).same (Markup.ofExpr (.var "x" ⟨0, 1⟩)) =
        true,
      (Expr.group (.var "x" ⟨1, 2⟩) ⟨0, 3⟩).ungroup.sameShape (Expr.var "x" ⟨0, 1⟩).ungroup =
        true].TFAE :=
  parse_renderings_agree
    (show (Expr.parse "(x)".toUTF8 .strict).result = .ok (.group (.var "x" ⟨1, 2⟩) ⟨0, 3⟩) by rfl)
    (show (Expr.parse "x".toUTF8 .lenient).result = .ok (.var "x" ⟨0, 1⟩) by rfl)

end Formula
