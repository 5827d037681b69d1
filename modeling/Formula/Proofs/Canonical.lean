import Formula.Expr.Canonical
import Formula.Proofs.Visible

/-! Reading a spelt tree back from its canonical text, without its groups and spans
(`readTree_canonical`): canonical text determines that much of a tree (`canonical_eq_iff`). -/

namespace Formula

namespace Expr

mutual

/-- The tree with every span set to `⟨0, 0⟩`: all that `sameShape` compares. -/
def erase : Expr → Expr
  | unary op a x _ => unary ⟨op.val, ⟨0, 0⟩⟩ a x.erase ⟨0, 0⟩
  | binary l op r _ => binary l.erase ⟨op.val, ⟨0, 0⟩⟩ r.erase ⟨0, 0⟩
  | group x _ => group x.erase ⟨0, 0⟩
  | array es _ => array (eraseList es) ⟨0, 0⟩
  | call name as _ => call ⟨name.val, ⟨0, 0⟩⟩ (eraseList as) ⟨0, 0⟩
  | num v _ => num v ⟨0, 0⟩
  | var name _ => var name ⟨0, 0⟩

/-- Every tree of a list with its spans set to `⟨0, 0⟩`. -/
def eraseList : List Expr → List Expr
  | [] => []
  | e :: es => e.erase :: eraseList es

end

mutual

/-- Trees whose erasures agree have the same shape. -/
theorem sameShape_of_erase : ∀ {e e' : Expr}, e.erase = e'.erase → sameShape e e' = true
  | unary _ _ x _, e', h => by
    cases e' <;> simp only [erase, reduceCtorEq, unary.injEq, Spanned.mk.injEq, and_true] at h
    obtain ⟨ho, rfl, hx⟩ := h
    simp [sameShape, ho, sameShape_of_erase hx]
  | binary l _ r _, e', h => by
    cases e' <;> simp only [erase, reduceCtorEq, binary.injEq, Spanned.mk.injEq, and_true] at h
    obtain ⟨hl, ho, hr⟩ := h
    simp [sameShape, ho, sameShape_of_erase hl, sameShape_of_erase hr]
  | group x _, e', h => by
    cases e' <;> simp only [erase, reduceCtorEq, group.injEq, and_true] at h
    simp [sameShape, sameShape_of_erase h]
  | array es _, e', h => by
    cases e' <;> simp only [erase, reduceCtorEq, array.injEq, and_true] at h
    simp [sameShape, sameShapeList_of_erase h]
  | call _ as _, e', h => by
    cases e' <;> simp only [erase, reduceCtorEq, call.injEq, Spanned.mk.injEq, and_true] at h
    obtain ⟨hn, has⟩ := h
    simp [sameShape, hn, sameShapeList_of_erase has]
  | num .., e', h | var .., e', h => by
    cases e' <;> simp_all [erase, sameShape]

theorem sameShapeList_of_erase : ∀ {es es' : List Expr}, eraseList es = eraseList es' →
    sameShapeList es es' = true
  | [], es', h => by cases es' <;> simp_all [eraseList, sameShapeList]
  | e :: es, es', h => by
    cases es' <;> simp only [eraseList, reduceCtorEq, List.cons.injEq] at h
    simp [sameShapeList, sameShape_of_erase h.1, sameShapeList_of_erase h.2]

end

mutual

/-- The bytes of the canonical text of a tree. -/
def canonicalBytes : Expr → List UInt8
  | unary op .pre x _ => "unExp(".toUTF8.data.toList ++ op.val.spelling.toUTF8.data.toList ++
      44 :: 32 :: x.canonicalBytes ++ [41]
  | unary op .post x _ => "unExp(".toUTF8.data.toList ++ x.canonicalBytes ++ 44 :: 32 ::
      op.val.spelling.toUTF8.data.toList ++ [41]
  | binary l op r _ => "binExp(".toUTF8.data.toList ++ l.canonicalBytes ++ 44 :: 32 ::
      op.val.spelling.toUTF8.data.toList ++ 44 :: 32 :: r.canonicalBytes ++ [41]
  | group x _ => x.canonicalBytes
  | array es _ => 91 :: canonicalListBytes es ++ [93]
  | call name as _ => name.val.toUTF8.data.toList ++ 40 :: canonicalListBytes as ++ [41]
  | num v _ => (Ascii.intDecimal v.toInt).toUTF8.data.toList
  | var name _ => name.toUTF8.data.toList

/-- The bytes of the canonical texts of a list of trees, separated by `, `. -/
def canonicalListBytes : List Expr → List UInt8
  | [] => []
  | [e] => e.canonicalBytes
  | e :: e' :: es => e.canonicalBytes ++ 44 :: 32 :: canonicalListBytes (e' :: es)

end

mutual

theorem writeCanonical_bytes : ∀ (e : Expr) (out : String),
    (e.writeCanonical out).toUTF8.data.toList = out.toUTF8.data.toList ++ e.canonicalBytes
  | unary op .pre x _, out => by
    rw [writeCanonical, bytes_append, writeCanonical_bytes x, bytes_append, bytes_append,
      bytes_append, canonicalBytes]
    simp [show ", ".toByteArray.data.toList = [44, 32] by rfl, show ")".toByteArray.data.toList = [41] by rfl]
  | unary op .post x _, out => by
    rw [writeCanonical, bytes_append, bytes_append, bytes_append, writeCanonical_bytes x,
      bytes_append, canonicalBytes]
    simp [show ", ".toByteArray.data.toList = [44, 32] by rfl, show ")".toByteArray.data.toList = [41] by rfl]
  | binary l op r _, out => by
    rw [writeCanonical, bytes_append, writeCanonical_bytes r, bytes_append, bytes_append,
      bytes_append, writeCanonical_bytes l, bytes_append, canonicalBytes]
    simp [show ", ".toByteArray.data.toList = [44, 32] by rfl, show ")".toByteArray.data.toList = [41] by rfl]
  | group x _, out => by rw [writeCanonical, writeCanonical_bytes x, canonicalBytes]
  | array es _, out => by
    rw [writeCanonical, bytes_append, writeCanonicalList_bytes es, bytes_append, canonicalBytes]
    simp [show "[".toByteArray.data.toList = [91] by rfl, show "]".toByteArray.data.toList = [93] by rfl]
  | call name as _, out => by
    rw [writeCanonical, bytes_append, writeCanonicalList_bytes as, bytes_append, bytes_append,
      canonicalBytes]
    simp [show "(".toByteArray.data.toList = [40] by rfl, show ")".toByteArray.data.toList = [41] by rfl]
  | num v _, out => by rw [writeCanonical, bytes_append, canonicalBytes]
  | var name _, out => by rw [writeCanonical, bytes_append, canonicalBytes]

theorem writeCanonicalList_bytes : ∀ (es : List Expr) (out : String),
    (writeCanonicalList es out).toUTF8.data.toList = out.toUTF8.data.toList ++ canonicalListBytes es
  | [], out => by simp [writeCanonicalList, canonicalListBytes]
  | [e], out => by rw [writeCanonicalList, writeCanonical_bytes e, canonicalListBytes]
  | e :: e' :: es, out => by
    rw [writeCanonicalList.eq_3 out e (e' :: es) (List.cons_ne_nil _ _),
      writeCanonicalList_bytes (e' :: es), bytes_append, writeCanonical_bytes e,
      canonicalListBytes]
    simp [show ", ".toByteArray.data.toList = [44, 32] by rfl]

end

/-- The canonical text of a tree is spelt by `canonicalBytes`. -/
theorem canonical_bytes (e : Expr) : e.canonical.toUTF8.data.toList = e.canonicalBytes := by
  rw [canonical, writeCanonical_bytes]
  simp

mutual

/-- Trees of the same shape have the same canonical text. -/
theorem canonicalBytes_congr : ∀ {e e' : Expr}, sameShape e e' = true →
    e.canonicalBytes = e'.canonicalBytes
  | unary op a x _, e', h => by
    cases e' <;> simp only [sameShape, Bool.and_eq_true, Bool.false_eq_true, beq_iff_eq] at h
    obtain ⟨⟨ho, rfl⟩, hx⟩ := h
    cases a <;> simp [canonicalBytes, ho, canonicalBytes_congr hx]
  | binary l _ r _, e', h => by
    cases e' <;> simp only [sameShape, Bool.and_eq_true, Bool.false_eq_true, beq_iff_eq] at h
    obtain ⟨⟨ho, hl⟩, hr⟩ := h
    simp [canonicalBytes, ho, canonicalBytes_congr hl, canonicalBytes_congr hr]
  | group x _, e', h => by
    cases e' <;> simp only [sameShape, Bool.false_eq_true] at h
    simp [canonicalBytes, canonicalBytes_congr h]
  | array es _, e', h => by
    cases e' <;> simp only [sameShape, Bool.false_eq_true] at h
    simp [canonicalBytes, canonicalListBytes_congr h]
  | call _ as _, e', h => by
    cases e' <;> simp only [sameShape, Bool.and_eq_true, Bool.false_eq_true, beq_iff_eq] at h
    simp [canonicalBytes, h.1, canonicalListBytes_congr h.2]
  | num .., e', h | var .., e', h => by
    cases e' <;> simp_all [sameShape, canonicalBytes]

theorem canonicalListBytes_congr : ∀ {es es' : List Expr}, sameShapeList es es' = true →
    canonicalListBytes es = canonicalListBytes es'
  | [], es', h => by cases es' <;> simp_all [sameShapeList]
  | [e], es', h => by
    rcases es' with _ | ⟨e', _ | ⟨e'', es'⟩⟩ <;>
      simp only [sameShapeList, Bool.and_eq_true, Bool.false_eq_true, and_false] at h
    simp [canonicalListBytes, canonicalBytes_congr h.1]
  | e :: f :: es, es', h => by
    rcases es' with _ | ⟨e', _ | ⟨f', es'⟩⟩ <;>
      simp only [sameShapeList, Bool.and_eq_true, Bool.false_eq_true, and_false] at h
    have hrest : sameShapeList (f :: es) (f' :: es') = true := by
      simp [sameShapeList, h.2.1, h.2.2]
    simp [canonicalListBytes, canonicalBytes_congr h.1, canonicalListBytes_congr hrest]

end

mutual

/-- Groups do not show in the canonical text. -/
theorem canonicalBytes_ungroup : ∀ e : Expr, e.ungroup.canonicalBytes = e.canonicalBytes
  | unary op .pre x _ | unary op .post x _ => by
    simp [ungroup, canonicalBytes, canonicalBytes_ungroup x]
  | binary l _ r _ => by simp [ungroup, canonicalBytes, canonicalBytes_ungroup l,
      canonicalBytes_ungroup r]
  | group x _ => by simp [ungroup, canonicalBytes, canonicalBytes_ungroup x]
  | array es _ => by simp [ungroup, canonicalBytes, canonicalListBytes_ungroup es]
  | call _ as _ => by simp [ungroup, canonicalBytes, canonicalListBytes_ungroup as]
  | num .. | var .. => rfl

theorem canonicalListBytes_ungroup : ∀ es : List Expr,
    canonicalListBytes (ungroupList es) = canonicalListBytes es
  | [] => rfl
  | [e] => by simp [ungroupList, canonicalListBytes, canonicalBytes_ungroup e]
  | e :: f :: es => by
    have := canonicalListBytes_ungroup (f :: es)
    simp only [ungroupList] at this ⊢
    simp [canonicalListBytes, canonicalBytes_ungroup e, this]

end

mutual

/-- Whether every name in the tree is a name and every number has no sign, as in every tree a
reading returns. -/
def spelt : Expr → Bool
  | unary _ _ x _ => x.spelt
  | binary l _ r _ => l.spelt && r.spelt
  | group x _ => x.spelt
  | array es _ => speltList es
  | call name as _ => Ascii.isName name.val && speltList as
  | num v _ => decide (0 ≤ v.toInt)
  | var name _ => Ascii.isName name

/-- Whether every tree of a list is `spelt`. -/
def speltList : List Expr → Bool
  | [] => true
  | e :: es => e.spelt && speltList es

end

theorem speltList_iff (es : List Expr) : speltList es = true ↔ ∀ x ∈ es, x.spelt = true := by
  induction es with
  | nil => simp [speltList]
  | cons e es ih => simp [speltList, ih]

/-- A tree is spelt when the operands its binary nodes join are. -/
theorem spelt_of_spine : ∀ {e : Expr}, (∀ x ∈ e.spine.operands, x.spelt = true) → e.spelt = true
  | binary l _ r _, h => by
    simp only [spine, Chain.operands_append, List.mem_append] at h
    simp [spelt, spelt_of_spine fun x hx => h x (.inl hx), spelt_of_spine fun x hx => h x (.inr hx)]
  | unary .., h | group .., h | array .., h | call .., h | num .., h | var .., h =>
    h _ List.mem_cons_self

end Expr

theorem Readable.spelt {rule : Rule} {x : Expr} (h : Readable rule x) : x.spelt = true := by
  induction h with
  | group _ ih => simpa [Expr.spelt] using ih
  | array _ _ ih => simpa [Expr.spelt, Expr.speltList_iff] using ih
  | call named _ ih => simpa [Expr.spelt, Expr.speltList_iff, named] using ih
  | num unsigned => simpa [Expr.spelt] using unsigned
  | var named => simpa [Expr.spelt] using named
  | plain _ ih => exact ih
  | affixed _ ih => simpa [Expr.spelt] using ih
  | chain _ _ _ ih => exact Expr.spelt_of_spine ih

namespace Canonical

/-- A part of a bracketed list in canonical text: a tree, or the spelling of an operator. -/
inductive Part where
  | tree (e : Expr)
  | op (spelling : List UInt8)

/-- The trees of a list of parts, when every part is a tree. -/
def Part.trees : List Part → Option (List Expr)
  | [] => some []
  | tree e :: ps => (trees ps).map (e :: ·)
  | op _ :: _ => none

theorem Part.trees_map (es : List Expr) : trees (es.map tree) = some es := by
  induction es with
  | nil => rfl
  | cons e es ih => simp [trees, ih]

/-- The unary operator that some bytes spell. -/
def unaryOf (o : List UInt8) : Option UnaryOp :=
  UnaryOp.all.find? (·.spelling.toUTF8.data.toList == o)

/-- The binary operator that some bytes spell. -/
def binaryOf (o : List UInt8) : Option BinaryOp :=
  BinaryOp.all.find? (·.spelling.toUTF8.data.toList == o)

/-- The text that some bytes spell. -/
def nameOf (bs : List UInt8) : String := Ascii.toText ⟨bs.toArray⟩

theorem nameOf_bytes {name : String} (h : Ascii.isName name = true) :
    nameOf name.toUTF8.data.toList = name := by
  obtain ⟨b, bs, hb, -, hall⟩ := Ascii.isName_bytes h
  refine eq_of_bytes ?_
  rw [nameOf, Ascii.toText_bytes]
  intro x hx
  rw [hb] at hx
  exact Ascii.lt_of_isNameByte (hall x hx)

/-- The tree that a name before a bracketed list of parts stands for: a list of trees is a call
of that name; `unExp` with an operator before or after one tree, and `binExp` with one between
two trees, are operations. -/
def assemble (name : List UInt8) (ps : List Part) : Option Expr :=
  match Part.trees ps with
  | some es => some (.call ⟨nameOf name, ⟨0, 0⟩⟩ es ⟨0, 0⟩)
  | none =>
    if name = "unExp".toUTF8.data.toList then
      match ps with
      | [.op o, .tree x] => (unaryOf o).map fun op => .unary ⟨op, ⟨0, 0⟩⟩ .pre x ⟨0, 0⟩
      | [.tree x, .op o] => (unaryOf o).map fun op => .unary ⟨op, ⟨0, 0⟩⟩ .post x ⟨0, 0⟩
      | _ => none
    else if name = "binExp".toUTF8.data.toList then
      match ps with
      | [.tree l, .op o, .tree r] => (binaryOf o).map fun op => .binary l ⟨op, ⟨0, 0⟩⟩ r ⟨0, 0⟩
      | _ => none
    else none

/-- Whether a byte starts the canonical text of a tree: a letter, a digit or `[`. -/
def opensTree (b : UInt8) : Bool := Ascii.isLetter b || Ascii.isDigit b || b == 91

/-- Whether a byte may stand in an operator: anything but a separator or a closer. -/
def isOpByte (b : UInt8) : Bool := !(b == 44 || b == 41 || b == 93)

mutual

/-- Reads the canonical text of one tree at the front of `bs`, with its spans set to `⟨0, 0⟩`,
and returns the bytes after it. -/
def readTree (bs : List UInt8) : Option (Expr × List UInt8) :=
  match bs with
  | [] => none
  | b :: rest =>
    if Ascii.isDigit b then
      some (.num (Int64.ofNat (Ascii.digitsOf ((b :: rest).takeWhile Ascii.isDigit))) ⟨0, 0⟩,
        (b :: rest).dropWhile Ascii.isDigit)
    else if b = 91 then
      match readParts 93 rest with
      | some (ps, more) => (Part.trees ps).map fun es => (.array es ⟨0, 0⟩, more)
      | none => none
    else if Ascii.isLetter b then
      match _h : (b :: rest).dropWhile Ascii.isNameByte with
      | 40 :: inner =>
        match readParts 41 inner with
        | some (ps, more) => (assemble ((b :: rest).takeWhile Ascii.isNameByte) ps).map (·, more)
        | none => none
      | after => some (.var (nameOf ((b :: rest).takeWhile Ascii.isNameByte)) ⟨0, 0⟩, after)
    else none
termination_by (bs.length, 0)
decreasing_by
  · exact Prod.Lex.left _ _ (by simp)
  · have : ((b :: rest).dropWhile Ascii.isNameByte).length ≤ (b :: rest).length :=
      (List.dropWhile_suffix _).length_le
    rw [_h] at this
    exact Prod.Lex.left _ _ (by simp at this ⊢; omega)

/-- Reads the parts of a bracketed list, separated by `, `, up to the byte `close`, and returns
the bytes after it. -/
def readParts (close : UInt8) (bs : List UInt8) : Option (List Part × List UInt8) :=
  match bs with
  | [] => none
  | b :: rest =>
    if b = close then some ([], rest)
    else
      let part := if opensTree b then (readTree (b :: rest)).map fun (e, r) => (Part.tree e, r)
        else some (Part.op ((b :: rest).takeWhile isOpByte), (b :: rest).dropWhile isOpByte)
      match part with
      | none => none
      | some (p, r) =>
        if _hr : r.length < (b :: rest).length then
          match _hm : r with
          | 44 :: 32 :: more => (readParts close more).map fun (ps, m) => (p :: ps, m)
          | c :: more => if c = close then some ([p], more) else none
          | [] => none
        else none
termination_by (bs.length, 1)
decreasing_by
  · exact Prod.Lex.right _ (by decide)
  · subst _hm
    exact Prod.Lex.left _ _ (by simp at _hr ⊢; omega)

end

/-! ### What the reader does on each form -/

theorem readTree_digit {b : UInt8} {bs : List UInt8} (h : Ascii.isDigit b = true) :
    readTree (b :: bs) = some (.num (Int64.ofNat (Ascii.digitsOf ((b :: bs).takeWhile Ascii.isDigit)))
      ⟨0, 0⟩, (b :: bs).dropWhile Ascii.isDigit) := by
  rw [readTree]
  simp only [h, if_true]

theorem readTree_bracket (bs : List UInt8) :
    readTree (91 :: bs) = (readParts 93 bs).bind fun p =>
      (Part.trees p.1).map fun es => (.array es ⟨0, 0⟩, p.2) := by
  rw [readTree]
  simp only [show Ascii.isDigit 91 = false by decide, Bool.false_eq_true, if_false, if_true]
  cases readParts 93 bs <;> rfl

theorem readTree_call {b : UInt8} {ns inner : List UInt8} (hb : Ascii.isLetter b = true)
    (hall : ∀ c ∈ b :: ns, Ascii.isNameByte c = true) :
    readTree (b :: ns ++ 40 :: inner) = (readParts 41 inner).bind fun p =>
      (assemble (b :: ns) p.1).map (·, p.2) := by
  have h40 : ∀ c ∈ (40 :: inner).head?, Ascii.isNameByte c = false := by simp; decide
  obtain ⟨htake, hdrop⟩ := Ascii.split_name hall h40
  rw [List.cons_append] at htake hdrop ⊢
  rw [readTree]
  have h91 : b ≠ 91 := fun h => by subst h; simp [Ascii.isLetter] at hb
  simp only [Ascii.isDigit_of_isLetter hb, Bool.false_eq_true, if_false, h91, hb, if_true]
  split
  · next heq =>
    rw [hdrop, List.cons.injEq] at heq
    rw [← heq.2, htake]
    cases readParts 41 inner <;> rfl
  · next hne =>
    exact absurd hdrop (hne inner)

theorem readTree_var {b : UInt8} {ns rest : List UInt8} (hb : Ascii.isLetter b = true)
    (hall : ∀ c ∈ b :: ns, Ascii.isNameByte c = true) (hr : FollowsPrimary rest) :
    readTree (b :: ns ++ rest) = some (.var (nameOf (b :: ns)) ⟨0, 0⟩, rest) := by
  obtain ⟨htake, hdrop⟩ := Ascii.split_name hall fun c hc => (hr c hc).1
  rw [List.cons_append] at htake hdrop ⊢
  rw [readTree]
  have h91 : b ≠ 91 := fun h => by subst h; simp [Ascii.isLetter] at hb
  simp only [Ascii.isDigit_of_isLetter hb, Bool.false_eq_true, if_false, h91, hb, if_true]
  split
  · next inner heq =>
    -- what follows a name here is no bracket
    rw [hdrop] at heq
    exact absurd rfl (hr 40 (by simp [heq])).2
  · rw [htake, hdrop]

theorem readParts_close (close : UInt8) (rest : List UInt8) :
    readParts close (close :: rest) = some ([], rest) := by
  rw [readParts]
  simp

theorem opensTree_ne_close {b close : UInt8} (hb : opensTree b = true)
    (hclose : close = 41 ∨ close = 93) : b ≠ close := by
  rintro rfl
  rcases hclose with rfl | rfl <;> exact absurd hb (by decide)

theorem closes_followsPrimary {rest : List UInt8} (h : Closes rest) : FollowsPrimary rest := by
  intro b hb
  rcases h b hb with rfl | rfl | rfl <;> exact ⟨by decide, by decide⟩

theorem unExp_open_bytes : "unExp(".toUTF8.data.toList = [117, 110, 69, 120, 112, 40] := rfl

theorem binExp_open_bytes : "binExp(".toUTF8.data.toList = [98, 105, 110, 69, 120, 112, 40] := rfl

theorem unExp_nameBytes : ∀ c ∈ (117 : UInt8) :: [110, 69, 120, 112], Ascii.isNameByte c = true := by
  simp [Ascii.isNameByte, Ascii.isAlnum, Ascii.isLetter]

theorem binExp_nameBytes : ∀ c ∈ (98 : UInt8) :: [105, 110, 69, 120, 112], Ascii.isNameByte c = true := by
  simp [Ascii.isNameByte, Ascii.isAlnum, Ascii.isLetter]

theorem assemble_pre (op : UnaryOp) (x : Expr) :
    assemble [117, 110, 69, 120, 112] [.op op.spelling.toUTF8.data.toList, .tree x] =
      some (.unary ⟨op, ⟨0, 0⟩⟩ .pre x ⟨0, 0⟩) := by
  cases op <;> rfl

theorem assemble_post (op : UnaryOp) (x : Expr) :
    assemble [117, 110, 69, 120, 112] [.tree x, .op op.spelling.toUTF8.data.toList] =
      some (.unary ⟨op, ⟨0, 0⟩⟩ .post x ⟨0, 0⟩) := by
  cases op <;> rfl

theorem assemble_binary (op : BinaryOp) (l r : Expr) :
    assemble [98, 105, 110, 69, 120, 112] [.tree l, .op op.spelling.toUTF8.data.toList, .tree r] =
      some (.binary l ⟨op, ⟨0, 0⟩⟩ r ⟨0, 0⟩) := by
  cases op <;> rfl

theorem assemble_trees (name : List UInt8) (es : List Expr) :
    assemble name (es.map .tree) = some (.call ⟨nameOf name, ⟨0, 0⟩⟩ es ⟨0, 0⟩) := by
  unfold assemble
  rw [Part.trees_map]

/-- The canonical text of a spelt tree starts with a byte that opens a tree. -/
theorem canonicalBytes_head : ∀ {e : Expr}, e.spelt = true →
    ∃ b bs, e.canonicalBytes = b :: bs ∧ opensTree b = true
  | .unary op .pre x _, _ => ⟨117, _, by rw [Expr.canonicalBytes, unExp_open_bytes]; rfl, by decide⟩
  | .unary op .post x _, _ => ⟨117, _, by rw [Expr.canonicalBytes, unExp_open_bytes]; rfl, by decide⟩
  | .binary l op r _, _ => ⟨98, _, by rw [Expr.canonicalBytes, binExp_open_bytes]; rfl, by decide⟩
  | .group x _, h => canonicalBytes_head (e := x) h
  | .array es _, _ => ⟨91, _, rfl, by decide⟩
  | .call name as _, h => by
    simp only [Expr.spelt, Bool.and_eq_true] at h
    obtain ⟨b, bs, hname, hb, -⟩ := Ascii.isName_bytes h.1
    exact ⟨b, _, by rw [Expr.canonicalBytes, hname]; rfl, by simp [opensTree, hb]⟩
  | .num v _, h => by
    have hv : 0 ≤ v.toInt := of_decide_eq_true h
    obtain ⟨d, ds, hd⟩ := List.exists_cons_of_ne_nil (Ascii.decimal_ne_nil v.toInt.natAbs)
    have hdig : Ascii.isDigit d = true := Ascii.isDigit_of_mem_decimal (hd ▸ List.mem_cons_self)
    refine ⟨d, ds, ?_, by simp [opensTree, hdig]⟩
    rw [Expr.canonicalBytes, Ascii.intDecimal, if_neg (by omega), hd]
  | .var name _, h => by
    obtain ⟨b, bs, hname, hb, -⟩ := Ascii.isName_bytes h
    exact ⟨b, bs, hname, by simp [opensTree, hb]⟩

theorem readParts_tree_next {close : UInt8} {e x : Expr} {more : List UInt8}
    (hclose : close = 41 ∨ close = 93) (he : e.spelt = true)
    (h : readTree (e.canonicalBytes ++ 44 :: 32 :: more) = some (x, 44 :: 32 :: more)) :
    readParts close (e.canonicalBytes ++ 44 :: 32 :: more) =
      (readParts close more).map fun p => (Part.tree x :: p.1, p.2) := by
  obtain ⟨b, bs, hbs, hb⟩ := canonicalBytes_head he
  rw [hbs, List.cons_append] at h ⊢
  rw [readParts]
  simp only [opensTree_ne_close hb hclose, if_false, hb, if_true, h, Option.map_some]
  rw [dif_pos (by simp only [List.length_cons, List.length_append]; omega)]

theorem readParts_tree_last {close : UInt8} {e x : Expr} {more : List UInt8}
    (hclose : close = 41 ∨ close = 93) (he : e.spelt = true)
    (h : readTree (e.canonicalBytes ++ close :: more) = some (x, close :: more)) :
    readParts close (e.canonicalBytes ++ close :: more) = some ([Part.tree x], more) := by
  obtain ⟨b, bs, hbs, hb⟩ := canonicalBytes_head he
  rw [hbs, List.cons_append] at h ⊢
  rw [readParts]
  simp only [opensTree_ne_close hb hclose, if_false, hb, if_true, h, Option.map_some]
  rw [dif_pos (by simp only [List.length_cons, List.length_append]; omega)]
  rcases hclose with rfl | rfl <;> rfl

/-- Bytes that read as one operator part: not empty, every byte may stand in an operator, and the
first opens no tree. -/
structure IsOp (o : List UInt8) : Prop where
  ne_nil : o ≠ []
  bytes : ∀ x ∈ o, isOpByte x = true
  head : ∀ x ∈ o.head?, opensTree x = false

theorem isOp_unary (op : UnaryOp) : IsOp op.spelling.toUTF8.data.toList := by
  rw [String.toUTF8_eq_toByteArray, UnaryOp.spelling_bytes]
  cases op <;> exact ⟨by simp, by simp [isOpByte], by simp [opensTree, Ascii.isLetter, Ascii.isDigit]⟩

theorem isOp_binary (op : BinaryOp) : IsOp op.spelling.toUTF8.data.toList := by
  rw [String.toUTF8_eq_toByteArray, BinaryOp.spelling_bytes]
  cases op <;> exact ⟨by simp, by simp [isOpByte], by simp [opensTree, Ascii.isLetter, Ascii.isDigit]⟩

/-- An operator runs up to the separator or closer after it. -/
theorem split_op {o rest : List UInt8} (hop : ∀ x ∈ o, isOpByte x = true)
    (hr : ∀ x ∈ rest.head?, isOpByte x = false) :
    (o ++ rest).takeWhile isOpByte = o ∧ (o ++ rest).dropWhile isOpByte = rest := by
  constructor
  · rw [List.takeWhile_append_of_pos hop]
    cases rest with
    | nil => simp
    | cons c cs => simp [hr c rfl]
  · rw [List.dropWhile_append_of_pos hop]
    cases rest with
    | nil => rfl
    | cons c cs => simp [hr c rfl]

theorem readParts_op_next {close : UInt8} {o more : List UInt8} (hclose : close = 41 ∨ close = 93)
    (ho : IsOp o) :
    readParts close (o ++ 44 :: 32 :: more) =
      (readParts close more).map fun p => (Part.op o :: p.1, p.2) := by
  obtain ⟨b, bs, rfl⟩ := List.exists_cons_of_ne_nil ho.ne_nil
  have hsep : ∀ x ∈ (44 :: 32 :: more).head?, isOpByte x = false := by simp; decide
  obtain ⟨htake, hdrop⟩ := split_op ho.bytes hsep
  have hc : b ≠ close := by
    have := ho.bytes b List.mem_cons_self
    rcases hclose with rfl | rfl <;> rintro rfl <;> simp [isOpByte] at this
  rw [List.cons_append] at htake hdrop ⊢
  rw [readParts]
  simp only [hc, if_false, ho.head b rfl, Bool.false_eq_true, htake, hdrop]
  rw [dif_pos (by simp)]

theorem readParts_op_last {close : UInt8} {o more : List UInt8} (hclose : close = 41 ∨ close = 93)
    (ho : IsOp o) :
    readParts close (o ++ close :: more) = some ([Part.op o], more) := by
  obtain ⟨b, bs, rfl⟩ := List.exists_cons_of_ne_nil ho.ne_nil
  have hcl : isOpByte close = false := by rcases hclose with rfl | rfl <;> rfl
  have hend : ∀ x ∈ (close :: more).head?, isOpByte x = false := by simpa using hcl
  obtain ⟨htake, hdrop⟩ := split_op ho.bytes hend
  have hc : b ≠ close := by
    rintro rfl
    rw [ho.bytes b List.mem_cons_self] at hcl
    cases hcl
  rw [List.cons_append] at htake hdrop ⊢
  rw [readParts]
  simp only [hc, if_false, ho.head b rfl, Bool.false_eq_true, htake, hdrop]
  rw [dif_pos (by simp)]
  rcases hclose with rfl | rfl <;> rfl

/-! ### The canonical text reads back -/

theorem ofNat_natAbs_toInt {v : Int64} (hv : 0 ≤ v.toInt) : Int64.ofNat v.toInt.natAbs = v := by
  have habs : v.toInt.natAbs = v.toInt.toNat := by omega
  rw [habs, Int64.toNat_toInt]
  exact Int64.ofNat_toNatClampNeg v (Int64.le_iff_toInt_le.mpr (by simpa using hv))

theorem closes_of_close {close : UInt8} (rest : List UInt8) (hclose : close = 41 ∨ close = 93) :
    Closes (close :: rest) := by
  rcases hclose with rfl | rfl <;> simp [Closes]

theorem closes_sep (rest : List UInt8) : Closes (44 :: 32 :: rest) := by
  simp [Closes]

mutual

/-- The canonical text of a spelt tree, before a closer or a separator, reads back as the tree
without its groups and spans. -/
theorem readTree_canonical : ∀ {e : Expr}, e.spelt = true → ∀ {rest : List UInt8}, Closes rest →
    readTree (e.canonicalBytes ++ rest) = some (e.ungroup.erase, rest)
  | .unary op .pre x s, h, rest, _ => by
    -- written `unExp(op, x)`: a call whose parts are the operator, then the operand
    have hxs : x.spelt = true := h
    have hx := readTree_canonical hxs (closes_of_close rest (.inl rfl))
    have hbytes : (Expr.unary op .pre x s).canonicalBytes ++ rest = 117 :: [110, 69, 120, 112] ++
        40 :: (op.val.spelling.toUTF8.data.toList ++ 44 :: 32 :: (x.canonicalBytes ++ 41 :: rest)) := by
      simp only [Expr.canonicalBytes, unExp_open_bytes, List.append_assoc, List.cons_append,
        List.nil_append]
    rw [hbytes, readTree_call (by decide) unExp_nameBytes,
      readParts_op_next (.inl rfl) (isOp_unary _), readParts_tree_last (.inl rfl) hxs hx]
    simp only [Option.map_some, Option.bind_some, assemble_pre]
    rfl
  | .unary op .post x s, h, rest, _ => by
    -- written `unExp(x, op)`: the operand comes first
    have hxs : x.spelt = true := h
    have hx := readTree_canonical hxs (closes_sep (op.val.spelling.toUTF8.data.toList ++ 41 :: rest))
    have hbytes : (Expr.unary op .post x s).canonicalBytes ++ rest = 117 :: [110, 69, 120, 112] ++
        40 :: (x.canonicalBytes ++ 44 :: 32 :: (op.val.spelling.toUTF8.data.toList ++ 41 :: rest)) := by
      simp only [Expr.canonicalBytes, unExp_open_bytes, List.append_assoc, List.cons_append,
        List.nil_append]
    rw [hbytes, readTree_call (by decide) unExp_nameBytes, readParts_tree_next (.inl rfl) hxs hx,
      readParts_op_last (.inl rfl) (isOp_unary _)]
    simp only [Option.map_some, Option.bind_some, assemble_post]
    rfl
  | .binary l op r s, h, rest, _ => by
    -- written `binExp(l, op, r)`
    simp only [Expr.spelt, Bool.and_eq_true] at h
    have hr := readTree_canonical h.2 (closes_of_close rest (.inl rfl))
    have hl := readTree_canonical h.1 (closes_sep
      (op.val.spelling.toUTF8.data.toList ++ 44 :: 32 :: (r.canonicalBytes ++ 41 :: rest)))
    have hbytes : (Expr.binary l op r s).canonicalBytes ++ rest = 98 :: [105, 110, 69, 120, 112] ++
        40 :: (l.canonicalBytes ++ 44 :: 32 :: (op.val.spelling.toUTF8.data.toList ++ 44 :: 32 ::
          (r.canonicalBytes ++ 41 :: rest))) := by
      simp only [Expr.canonicalBytes, binExp_open_bytes, List.append_assoc, List.cons_append,
        List.nil_append]
    rw [hbytes, readTree_call (by decide) binExp_nameBytes, readParts_tree_next (.inl rfl) h.1 hl,
      readParts_op_next (.inl rfl) (isOp_binary _), readParts_tree_last (.inl rfl) h.2 hr]
    simp only [Option.map_some, Option.bind_some, assemble_binary]
    rfl
  | .group x s, h, rest, hrest => by
    -- a group is written as what it encloses, and reads back without itself
    have hx : x.spelt = true := h
    rw [Expr.canonicalBytes, Expr.ungroup]
    exact readTree_canonical hx hrest
  | .array es s, h, rest, _ => by
    have hes : readParts 93 (Expr.canonicalListBytes es ++ 93 :: rest) = _ :=
      readParts_canonical h rest (.inr rfl)
    have hbytes : (Expr.array es s).canonicalBytes ++ rest =
        91 :: (Expr.canonicalListBytes es ++ 93 :: rest) := by
      simp [Expr.canonicalBytes]
    rw [hbytes, readTree_bracket, hes, Option.bind_some, Part.trees_map, Option.map_some]
    simp only [Expr.ungroup, Expr.erase]
  | .call name as s, h, rest, _ => by
    -- written as the name, then the arguments as parts closed by `)`
    simp only [Expr.spelt, Bool.and_eq_true] at h
    obtain ⟨b, bs, hname, hb, hall⟩ := Ascii.isName_bytes h.1
    have has : readParts 41 (Expr.canonicalListBytes as ++ 41 :: rest) = _ :=
      readParts_canonical h.2 rest (.inl rfl)
    have hbytes : (Expr.call name as s).canonicalBytes ++ rest =
        b :: bs ++ 40 :: (Expr.canonicalListBytes as ++ 41 :: rest) := by
      rw [Expr.canonicalBytes, hname]
      simp
    rw [hbytes, readTree_call hb hall, has, Option.bind_some, assemble_trees, Option.map_some, ← hname,
      nameOf_bytes h.1]
    simp only [Expr.ungroup, Expr.erase]
  | .num v s, h, rest, hrest => by
    -- a number without a sign is written as its decimal numeral
    have hv : 0 ≤ v.toInt := of_decide_eq_true h
    have hdec : (Expr.num v s).canonicalBytes =
        (Ascii.natDecimal v.toInt.natAbs).toUTF8.data.toList := by
      rw [Expr.canonicalBytes, Ascii.intDecimal, if_neg (by omega)]
    obtain ⟨htake, hdrop⟩ := Ascii.split_decimal v.toInt.natAbs (closes_followsPrimary hrest)
    obtain ⟨d, ds, hd⟩ := List.exists_cons_of_ne_nil (Ascii.decimal_ne_nil v.toInt.natAbs)
    have hdig : Ascii.isDigit d = true := Ascii.isDigit_of_mem_decimal (hd ▸ List.mem_cons_self)
    rw [hdec, hd, List.cons_append, readTree_digit hdig, ← List.cons_append, ← hd, htake, hdrop,
      Ascii.digitsOf, Ascii.decimal_value, ofNat_natAbs_toInt hv]
    rfl
  | .var name s, h, rest, hrest => by
    obtain ⟨b, bs, hname, hb, hall⟩ := Ascii.isName_bytes h
    rw [Expr.canonicalBytes, hname, readTree_var hb hall (closes_followsPrimary hrest), ← hname,
      nameOf_bytes h]
    rfl

/-- The canonical texts of spelt trees, separated by `, ` and closed by `)` or `]`, read back as
the trees without their groups and spans. -/
theorem readParts_canonical : ∀ {es : List Expr}, Expr.speltList es = true → ∀ {close : UInt8}
    (rest : List UInt8), (close = 41 ∨ close = 93) →
    readParts close (Expr.canonicalListBytes es ++ close :: rest) =
      some ((Expr.eraseList (Expr.ungroupList es)).map .tree, rest)
  | [], _, close, rest, _ => readParts_close close rest
  | [e], h, close, rest, hclose => by
    simp only [Expr.speltList, Bool.and_true] at h
    rw [Expr.canonicalListBytes,
      readParts_tree_last hclose h (readTree_canonical h (closes_of_close rest hclose))]
    rfl
  | e :: f :: es, h, close, rest, hclose => by
    rw [Expr.speltList, Bool.and_eq_true] at h
    have hfs : Expr.speltList (f :: es) = true := h.2
    have htail := readParts_canonical hfs rest hclose
    have he := readTree_canonical h.1
      (closes_sep (Expr.canonicalListBytes (f :: es) ++ close :: rest))
    rw [Expr.canonicalListBytes, List.append_assoc, List.cons_append, List.cons_append,
      readParts_tree_next hclose h.1 he, htail]
    rfl

end

end Canonical

namespace Expr

/-- Trees of the same shape once their groups are dropped have the same canonical text. -/
theorem canonical_eq_of_sameShape {a b : Expr} (h : a.ungroup.sameShape b.ungroup = true) :
    a.canonical = b.canonical := by
  apply eq_of_bytes
  rw [canonical_bytes, canonical_bytes, ← canonicalBytes_ungroup a, ← canonicalBytes_ungroup b,
    canonicalBytes_congr h]

/-- On spelt trees the canonical text is exactly as fine as the shape without groups: reading the
text back recovers that shape. -/
theorem canonical_eq_iff {a b : Expr} (ha : a.spelt = true) (hb : b.spelt = true) :
    a.canonical = b.canonical ↔ a.ungroup.sameShape b.ungroup = true := by
  refine ⟨fun h => ?_, canonical_eq_of_sameShape⟩
  have hbytes : a.canonicalBytes = b.canonicalBytes := by
    rw [← canonical_bytes, ← canonical_bytes, h]
  have hnil : Closes [] := by simp [Closes]
  have hread := Canonical.readTree_canonical ha hnil
  rw [hbytes, Canonical.readTree_canonical hb hnil, Option.some.injEq, Prod.mk.injEq] at hread
  exact sameShape_of_erase hread.1.symm

end Expr

end Formula
