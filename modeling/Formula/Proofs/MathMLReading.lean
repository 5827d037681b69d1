import Formula.Markup.MathML
import Formula.Proofs.Printing

/-! Reading MathML text back: whatever the element and the layout, `Markup.readMathML` reads its
text back as what the element shows (`readMathML_toMathML`). -/

namespace Formula.Markup

/-! ### The reader -/

/-- Bytes that XML counts as white space: space, tab, line feed, carriage return. -/
def isXmlSpace (b : UInt8) : Bool := b == 32 || b == 9 || b == 10 || b == 13

/-- White space between tags, passed over when the layout is pretty. -/
def skipSpace (pretty : Bool) (bs : List UInt8) : List UInt8 :=
  if pretty then bs.dropWhile isXmlSpace else bs

/-- Character data with the five predefined entities decoded; an `&` that starts none of them is
refused. -/
def unescapeBytes : List UInt8 → Option (List UInt8)
  | [] => some []
  | 38 :: 97 :: 109 :: 112 :: 59 :: rest => (38 :: ·) <$> unescapeBytes rest
  | 38 :: 108 :: 116 :: 59 :: rest => (60 :: ·) <$> unescapeBytes rest
  | 38 :: 103 :: 116 :: 59 :: rest => (62 :: ·) <$> unescapeBytes rest
  | 38 :: 113 :: 117 :: 111 :: 116 :: 59 :: rest => (34 :: ·) <$> unescapeBytes rest
  | 38 :: 97 :: 112 :: 111 :: 115 :: 59 :: rest => (39 :: ·) <$> unescapeBytes rest
  | 38 :: _ => none
  | b :: rest => (b :: ·) <$> unescapeBytes rest

/-- The bytes of the tag of a kind. -/
def Kind.tagBytes (k : Kind) : List UInt8 := k.tag.toUTF8.data.toList

/-- The kind whose tag is `name`. -/
def Kind.ofTag? (name : List UInt8) : Option Kind := Kind.all.find? (·.tagBytes == name)

/-- An opening tag `<name>`: what stands between the brackets, and the bytes after it. -/
def openTag? : List UInt8 → Option (List UInt8 × List UInt8)
  | 60 :: rest =>
    match rest.span (· != 62) with
    | (name, 62 :: after) => some (name, after)
    | _ => none
  | _ => none

/-- The closing tag `</name>`: the bytes after it. -/
def closeTag? (name : List UInt8) : List UInt8 → Option (List UInt8)
  | 60 :: 47 :: rest =>
    if (name ++ [62]).isPrefixOf rest then some (rest.drop (name.length + 1)) else none
  | _ => none

mutual

/-- Reads one element after white space: its opening tag, then the text of a token element or
the children of any other, then its closing tag. Each element read takes a unit of `fuel`, and so
does each child read before its siblings. -/
def readElement (pretty : Bool) : Nat → List UInt8 → Option (Element × List UInt8)
  | 0, _ => none
  | n + 1, bs => do
    let (name, bs) ← openTag? (skipSpace pretty bs)
    let k ← Kind.ofTag? name
    if k.isLeaf then
      let (raw, bs) := bs.span (· != 60)
      let text ← unescapeBytes raw
      let bs ← closeTag? name bs
      pure (⟨k, ⟨text.toArray⟩, []⟩, bs)
    else
      let (kids, bs) ← readChildren pretty n bs
      let bs ← closeTag? name (skipSpace pretty bs)
      pure (⟨k, ByteArray.empty, kids⟩, bs)

/-- Reads elements up to a closing tag. -/
def readChildren (pretty : Bool) : Nat → List UInt8 → Option (List Element × List UInt8)
  | 0, _ => none
  | n + 1, bs =>
    if (skipSpace pretty bs).take 2 = [60, 47] then some ([], bs)
    else do
      let (e, bs) ← readElement pretty n bs
      let (es, bs) ← readChildren pretty n bs
      pure (e :: es, bs)

end

/-- What the opening tag of the `math` root holds. -/
def mathRoot : List UInt8 := "math xmlns=\"http://www.w3.org/1998/Math/MathML\"".toUTF8.data.toList

/-- Reads the MathML text of one element written under a layout: inside the `math` root when
the layout wraps, with nothing but white space after it. -/
def readMathML (l : Layout) (bs : List UInt8) : Option Element :=
  if l.wrap then do
    let (root, rest) ← openTag? (skipSpace l.pretty bs)
    if root ≠ mathRoot then none else
    let (e, rest) ← readElement l.pretty bs.length rest
    let rest ← closeTag? "math".toUTF8.data.toList (skipSpace l.pretty rest)
    if skipSpace l.pretty rest = [] then some e else none
  else do
    let (e, rest) ← readElement l.pretty bs.length bs
    if skipSpace l.pretty rest = [] then some e else none

mutual

/-- What MathML shows of an element: a leaf shows its kind and text, any other element its kind
and what its children show. -/
def Element.shown : Element → Element
  | ⟨k, text, kids⟩ =>
    if k.isLeaf then ⟨k, text, []⟩ else ⟨k, ByteArray.empty, Element.shownList kids⟩

/-- What MathML shows of each element of a list. -/
def Element.shownList : List Element → List Element
  | [] => []
  | e :: es => e.shown :: Element.shownList es

end

/-! ### The bytes of the MathML text -/

/-- What escaping writes for a byte: an entity for the five that XML reserves, else the byte. -/
def entity (b : UInt8) : List UInt8 :=
  if b = 38 then [38, 97, 109, 112, 59]
  else if b = 60 then [38, 108, 116, 59]
  else if b = 62 then [38, 103, 116, 59]
  else if b = 34 then [38, 113, 117, 111, 116, 59]
  else if b = 39 then [38, 97, 112, 111, 115, 59]
  else [b]

theorem escapeByte_bytes (out : ByteArray) (b : UInt8) :
    (escapeByte out b).data.toList = out.data.toList ++ entity b := by
  unfold escapeByte entity
  split_ifs <;> simp only [ByteArray.data_append, ByteArray.data_push, Array.toList_append,
    Array.toList_push] <;> rfl

theorem escape_bytes (text : ByteArray) :
    (escape text).data.toList = text.data.toList.flatMap entity := by
  rw [escape, foldl_bytes]
  -- the bytes escaped so far stay in front
  suffices h : ∀ (bs : List UInt8) (out : ByteArray),
      (bs.foldl escapeByte out).data.toList = out.data.toList ++ bs.flatMap entity by
    simpa using h text.data.toList ByteArray.empty
  intro bs
  induction bs with
  | nil => simp
  | cons b bs ih =>
    intro out
    rw [List.foldl_cons, ih, escapeByte_bytes, List.flatMap_cons, List.append_assoc]

/-- The bytes of the opening tag of a kind. -/
def Kind.openBytes (k : Kind) : List UInt8 := 60 :: k.tagBytes ++ [62]

/-- The bytes of the closing tag of a kind. -/
def Kind.closeBytes (k : Kind) : List UInt8 := 60 :: 47 :: k.tagBytes ++ [62]

theorem Kind.openTag_bytes (k : Kind) : ("<" ++ k.tag ++ ">").toUTF8.data.toList = k.openBytes := by
  cases k <;> rfl

theorem Kind.closeTag_bytes (k : Kind) : ("</" ++ k.tag ++ ">").toUTF8.data.toList = k.closeBytes := by
  cases k <;> rfl

namespace Layout

/-- The indentation of level `depth`: two spaces a level in the pretty layout, none otherwise. -/
def indentBytes (l : Layout) (depth : Nat) : List UInt8 :=
  if l.pretty then List.replicate (2 * depth) 32 else []

/-- The end of a line: a line feed in the pretty layout, nothing otherwise. -/
def lineEnd (l : Layout) : List UInt8 := if l.pretty then [10] else []

theorem pushn_bytes (n : Nat) : ("".pushn ' ' n).toUTF8.data.toList = List.replicate n 32 := by
  induction n with
  | zero => rfl
  | succ n ih =>
    rw [String.pushn_eq_repeat_push, Nat.repeat, ← String.pushn_eq_repeat_push,
      Expr.bytes_push _ _ (by decide), ih, List.replicate_succ']
    rfl

theorem indent_bytes (l : Layout) (depth : Nat) (out : ByteArray) :
    (l.indent depth out).data.toList = out.data.toList ++ l.indentBytes depth := by
  unfold indent indentBytes
  split
  · rw [ByteArray.data_append, Array.toList_append, pushn_bytes]
  · rw [List.append_nil]

theorem newline_bytes (l : Layout) (out : ByteArray) :
    (l.newline out).data.toList = out.data.toList ++ l.lineEnd := by
  unfold newline lineEnd
  split
  · rw [ByteArray.data_push, Array.toList_push]
  · rw [List.append_nil]

theorem openTag_bytes (l : Layout) (depth : Nat) (tag attrs : String) (out : ByteArray) :
    (l.openTag depth tag attrs out).data.toList = out.data.toList ++ l.indentBytes depth ++
      ("<" ++ tag ++ (if attrs.isEmpty then "" else " " ++ attrs) ++ ">").toUTF8.data.toList ++
      l.lineEnd := by
  rw [openTag, newline_bytes, ByteArray.data_append, Array.toList_append, indent_bytes]

theorem closeTag_bytes (l : Layout) (depth : Nat) (tag : String) (out : ByteArray) :
    (l.closeTag depth tag out).data.toList = out.data.toList ++ l.indentBytes depth ++
      ("</" ++ tag ++ ">").toUTF8.data.toList ++ l.lineEnd := by
  rw [closeTag, newline_bytes, ByteArray.data_append, Array.toList_append, indent_bytes]

mutual

/-- The bytes the writer appends for an element at level `depth`. -/
def elementBytes (l : Layout) (depth : Nat) : Element → List UInt8
  | ⟨k, text, kids⟩ =>
    if k.isLeaf then
      l.indentBytes depth ++ k.openBytes ++ text.data.toList.flatMap entity ++ k.closeBytes ++
        l.lineEnd
    else
      l.indentBytes depth ++ k.openBytes ++ l.lineEnd ++ l.listBytes (depth + 1) kids ++
        l.indentBytes depth ++ k.closeBytes ++ l.lineEnd

/-- The bytes the writer appends for the elements of a list at level `depth`. -/
def listBytes (l : Layout) (depth : Nat) : List Element → List UInt8
  | [] => []
  | e :: es => l.elementBytes depth e ++ l.listBytes depth es

end

mutual

theorem writeElement_bytes (l : Layout) : ∀ (depth : Nat) (e : Element) (out : ByteArray),
    (l.writeElement depth e out).data.toList = out.data.toList ++ l.elementBytes depth e
  | depth, ⟨k, text, kids⟩, out => by
    rw [writeElement, elementBytes]
    split
    · rw [newline_bytes, ByteArray.data_append, ByteArray.data_append, ByteArray.data_append,
        Array.toList_append, Array.toList_append, Array.toList_append, indent_bytes,
        Kind.openTag_bytes, escape_bytes, Kind.closeTag_bytes]
      simp only [List.append_assoc]
    · -- the opening tag of an element carries no attributes
      rw [closeTag_bytes, writeList_bytes l (depth + 1) kids, openTag_bytes,
        if_pos (show "".isEmpty = true from rfl), String.append_empty, Kind.openTag_bytes,
        Kind.closeTag_bytes]
      simp only [List.append_assoc]

theorem writeList_bytes (l : Layout) : ∀ (depth : Nat) (es : List Element) (out : ByteArray),
    (l.writeList depth es out).data.toList = out.data.toList ++ l.listBytes depth es
  | depth, [], out => by simp [writeList, listBytes]
  | depth, e :: es, out => by
    rw [writeList, listBytes, writeList_bytes l depth es, writeElement_bytes l depth e,
      List.append_assoc]

end

/-- Bytes the reader may pass over between tags: white space, and only in the pretty layout. -/
def Blank (l : Layout) (bs : List UInt8) : Prop := ∀ b ∈ bs, l.pretty = true ∧ isXmlSpace b = true

theorem blank_nil (l : Layout) : l.Blank [] := nofun

theorem Blank.append {l : Layout} {P Q : List UInt8} (hP : l.Blank P) (hQ : l.Blank Q) :
    l.Blank (P ++ Q) := by
  intro b hb
  rcases List.mem_append.mp hb with h | h
  · exact hP b h
  · exact hQ b h

theorem blank_indent (l : Layout) (depth : Nat) : l.Blank (l.indentBytes depth) := by
  intro b hb
  unfold indentBytes at hb
  split at hb
  · rw [List.eq_of_mem_replicate hb]
    exact ⟨by assumption, rfl⟩
  · exact absurd hb List.not_mem_nil

theorem blank_lineEnd (l : Layout) : l.Blank l.lineEnd := by
  intro b hb
  unfold lineEnd at hb
  split at hb
  · rw [List.mem_singleton.mp hb]
    exact ⟨by assumption, rfl⟩
  · exact absurd hb List.not_mem_nil

theorem skipSpace_blank_append {l : Layout} {P : List UInt8} (hP : l.Blank P) (Q : List UInt8) :
    skipSpace l.pretty (P ++ Q) = skipSpace l.pretty Q := by
  unfold skipSpace
  split
  · -- every byte of `P` is white space, so `dropWhile` passes over all of it
    rw [List.dropWhile_append_of_pos fun b hb => (hP b hb).2]
  · -- out of the pretty layout nothing is blank
    cases P with
    | nil => rfl
    | cons b P => exact absurd (hP b List.mem_cons_self).1 (by assumption)

theorem skipSpace_blank {l : Layout} {P : List UInt8} (hP : l.Blank P) :
    skipSpace l.pretty P = [] := by
  simpa [skipSpace] using skipSpace_blank_append hP []

end Layout

/-- A tag is never white space, so the reader stops at it. -/
theorem skipSpace_tag (pretty : Bool) (rest : List UInt8) :
    skipSpace pretty (60 :: rest) = 60 :: rest := by
  unfold skipSpace
  split
  · rw [List.dropWhile_cons_of_neg (by decide)]
  · rfl

theorem openTag?_tag {name : List UInt8} (h : ∀ b ∈ name, b ≠ 62) (rest : List UInt8) :
    openTag? (60 :: (name ++ 62 :: rest)) = some (name, rest) := by
  have hname : ∀ b ∈ name, (b != 62) = true := fun b hb => bne_iff_ne.mpr (h b hb)
  rw [openTag?, List.span_eq_takeWhile_dropWhile, List.takeWhile_append_of_pos hname,
    List.dropWhile_append_of_pos hname, List.takeWhile_cons_of_neg (by decide),
    List.dropWhile_cons_of_neg (by decide), List.append_nil]
  rfl

theorem closeTag?_tag (name rest : List UInt8) :
    closeTag? name (60 :: 47 :: (name ++ 62 :: rest)) = some rest := by
  have hsplit : name ++ 62 :: rest = (name ++ [62]) ++ rest := by
    rw [List.append_assoc, List.singleton_append]
  have hpre : (name ++ [62]).isPrefixOf (name ++ 62 :: rest) = true := by
    rw [List.isPrefixOf_iff_prefix, hsplit]
    exact List.prefix_append _ _
  rw [closeTag?, if_pos hpre, hsplit,
    List.drop_left' (by rw [List.length_append, List.length_singleton])]

namespace Kind

/-- Tags are ASCII: their bytes are the codes of their characters. -/
theorem tagBytes_eq (k : Kind) : k.tagBytes = k.tag.toList.map (·.toNat.toUInt8) := by
  cases k <;> rfl

theorem tagBytes_ne_close (k : Kind) : ∀ b ∈ k.tagBytes, b ≠ 62 := by
  cases k <;> simp [tagBytes_eq, tag]

theorem ofTag?_tagBytes (k : Kind) : Kind.ofTag? k.tagBytes = some k := by
  cases k <;> simp [ofTag?, all, tagBytes_eq, tag]

theorem tagBytes_head (k : Kind) : ∃ t, k.tagBytes = 109 :: t := by
  cases k <;> exact ⟨_, rfl⟩

theorem openBytes_append (k : Kind) (rest : List UInt8) :
    k.openBytes ++ rest = 60 :: (k.tagBytes ++ 62 :: rest) := by
  simp only [openBytes, List.cons_append, List.append_assoc, List.nil_append]

theorem closeBytes_append (k : Kind) (rest : List UInt8) :
    k.closeBytes ++ rest = 60 :: 47 :: (k.tagBytes ++ 62 :: rest) := by
  simp only [closeBytes, List.cons_append, List.append_assoc, List.nil_append]

theorem openTag?_openBytes (k : Kind) (rest : List UInt8) :
    openTag? (k.openBytes ++ rest) = some (k.tagBytes, rest) := by
  rw [openBytes_append]
  exact openTag?_tag k.tagBytes_ne_close rest

theorem closeTag?_closeBytes (k : Kind) (rest : List UInt8) :
    closeTag? k.tagBytes (k.closeBytes ++ rest) = some rest := by
  rw [closeBytes_append]
  exact closeTag?_tag k.tagBytes rest

/-- Every tag starts with `m`, so no opening tag looks like a closing one. -/
theorem openBytes_not_close (k : Kind) (rest : List UInt8) :
    (k.openBytes ++ rest).take 2 ≠ [60, 47] := by
  obtain ⟨t, ht⟩ := k.tagBytes_head
  simp [openBytes, ht]

theorem closeBytes_close (k : Kind) (rest : List UInt8) :
    (k.closeBytes ++ rest).take 2 = [60, 47] := by
  rw [closeBytes_append]
  rfl

end Kind

/-! ### Escaped text -/

/-- No entity holds `<`, so the text of a leaf runs up to its closing tag. -/
theorem entity_ne_open (b : UInt8) : ∀ x ∈ entity b, x ≠ 60 := by
  intro x hx
  unfold entity at hx
  -- the five entities are spelt without `<`, and a byte kept as it is was no `<`
  split_ifs at hx with h1 h2
  all_goals simp at hx
  all_goals grind

theorem span_escaped (text rest : List UInt8) :
    (text.flatMap entity ++ 60 :: rest).span (· != 60) = (text.flatMap entity, 60 :: rest) := by
  have htext : ∀ x ∈ text.flatMap entity, (x != 60) = true := by
    intro x hx
    obtain ⟨b, -, hb⟩ := List.mem_flatMap.mp hx
    exact bne_iff_ne.mpr (entity_ne_open b x hb)
  rw [List.span_eq_takeWhile_dropWhile, List.takeWhile_append_of_pos htext,
    List.dropWhile_append_of_pos htext, List.takeWhile_cons_of_neg (by decide),
    List.dropWhile_cons_of_neg (by decide), List.append_nil]

theorem unescapeBytes_entity (b : UInt8) (rest : List UInt8) :
    unescapeBytes (entity b ++ rest) = (b :: ·) <$> unescapeBytes rest := by
  unfold entity
  split_ifs with h1 h2 h3 h4 h5
  · subst h1; rfl
  · subst h2; rfl
  · subst h3; rfl
  · subst h4; rfl
  · subst h5; rfl
  · -- a byte that escaping keeps is read as itself: it is no `&`
    rw [List.singleton_append, unescapeBytes.eq_def]
    split <;> simp_all

theorem unescapeBytes_escaped (text : List UInt8) :
    unescapeBytes (text.flatMap entity) = some text := by
  induction text with
  | nil => rfl
  | cons b text ih => rw [List.flatMap_cons, unescapeBytes_entity, ih]; rfl

/-! ### Fuel -/

mutual

/-- The fuel the reader spends on an element: a unit for a leaf, and for any other element one
more than its children take. -/
def Element.need : Element → Nat
  | ⟨k, _, kids⟩ => if k.isLeaf then 1 else Element.needList kids + 1

/-- The fuel the reader spends on the elements of a list and the closing tag after them. -/
def Element.needList : List Element → Nat
  | [] => 1
  | e :: es => max e.need (Element.needList es) + 1

end

theorem Kind.length_openBytes (k : Kind) : k.openBytes.length = k.tagBytes.length + 2 := by
  simp [openBytes]

mutual

/-- The text of an element is longer than the fuel the reader spends on it. -/
theorem need_le_length (l : Layout) : ∀ (depth : Nat) (e : Element),
    e.need ≤ (l.elementBytes depth e).length
  | depth, ⟨k, text, kids⟩ => by
    have hk := k.length_openBytes
    rw [Element.need, Layout.elementBytes]
    split
    · simp only [List.length_append]
      omega
    · have hkids := needList_le_length l (depth + 1) kids
      simp only [List.length_append]
      omega

theorem needList_le_length (l : Layout) : ∀ (depth : Nat) (es : List Element),
    Element.needList es ≤ (l.listBytes depth es).length + 1
  | depth, [] => le_refl 1
  | depth, e :: es => by
    have he := need_le_length l depth e
    have hes := needList_le_length l depth es
    -- an element's text is never empty, which pays for the unit its list spends
    have hpos : 0 < (l.elementBytes depth e).length := by
      have hk := e.kind.length_openBytes
      obtain ⟨k, text, kids⟩ := e
      rw [Layout.elementBytes]
      split <;> simp only [List.length_append] at hk ⊢ <;> omega
    rw [Element.needList, Layout.listBytes, List.length_append]
    omega

end

theorem Element.need_pos (e : Element) : 0 < e.need := by
  obtain ⟨k, text, kids⟩ := e
  rw [Element.need]
  split <;> omega

theorem Element.needList_pos (es : List Element) : 0 < Element.needList es := by
  cases es <;> simp [Element.needList]

/-! ### Reading the text back -/

/-- The text of an element starts with its indentation and its opening tag. -/
theorem Layout.elementBytes_append (l : Layout) (depth : Nat) (e : Element) (rest : List UInt8) :
    ∃ after, l.elementBytes depth e ++ rest = l.indentBytes depth ++ (e.kind.openBytes ++ after) := by
  obtain ⟨k, text, kids⟩ := e
  rw [Layout.elementBytes]
  split
  · exact ⟨_, by simp only [List.append_assoc]; rfl⟩
  · exact ⟨_, by simp only [List.append_assoc]; rfl⟩

/-- Past blank bytes, the reader finds an opening tag. -/
theorem skipSpace_openBytes {l : Layout} {P : List UInt8} (hP : l.Blank P) (k : Kind)
    (rest : List UInt8) :
    skipSpace l.pretty (P ++ (k.openBytes ++ rest)) = k.openBytes ++ rest := by
  rw [Layout.skipSpace_blank_append hP, Kind.openBytes_append, skipSpace_tag]

/-- Past blank bytes, the reader finds a closing tag. -/
theorem skipSpace_closeBytes {l : Layout} {P : List UInt8} (hP : l.Blank P) (k : Kind)
    (rest : List UInt8) :
    skipSpace l.pretty (P ++ (k.closeBytes ++ rest)) = k.closeBytes ++ rest := by
  rw [Layout.skipSpace_blank_append hP, Kind.closeBytes_append, skipSpace_tag]

mutual

/-- The reader reads an element's text back as what the element shows, after any blank bytes
and before any rest, given the fuel it needs. -/
theorem readElement_elementBytes (l : Layout) : ∀ (n depth : Nat) (e : Element)
    (P rest : List UInt8), l.Blank P → e.need ≤ n →
    readElement l.pretty n (P ++ (l.elementBytes depth e ++ rest)) = some (e.shown, l.lineEnd ++ rest)
  | 0, _, e, _, _, _, hn => absurd hn (Nat.not_le_of_lt e.need_pos)
  | n + 1, depth, ⟨k, text, kids⟩, P, rest, hP, hn => by
    -- by recursion on the element, with its children read by `readChildren_listBytes`; the fuel,
    -- the blank bytes before it and the rest after it vary from call to call
    have hP' := hP.append (l.blank_indent depth)
    by_cases hk : k.isLeaf
    · -- a leaf: its escaped text up to its closing tag
      have hbytes : P ++ (l.elementBytes depth ⟨k, text, kids⟩ ++ rest) = (P ++ l.indentBytes depth) ++
          (k.openBytes ++ (text.data.toList.flatMap entity ++ (k.closeBytes ++ (l.lineEnd ++ rest)))) := by
        rw [Layout.elementBytes, if_pos hk]
        simp only [List.append_assoc]
      have hspan : (text.data.toList.flatMap entity ++ (k.closeBytes ++ (l.lineEnd ++ rest))).span
          (· != 60) = (text.data.toList.flatMap entity, k.closeBytes ++ (l.lineEnd ++ rest)) := by
        rw [Kind.closeBytes_append]
        exact span_escaped _ _
      rw [readElement, hbytes, skipSpace_openBytes hP']
      simp only [Kind.openTag?_openBytes, Kind.ofTag?_tagBytes, hk, if_true, hspan,
        unescapeBytes_escaped, Kind.closeTag?_closeBytes, Option.pure_def, Option.bind_eq_bind,
        Option.bind_some]
      rw [Element.shown, if_pos hk, Array.toArray_toList]
    · -- any other element: its children, then its closing tag after blank bytes
      have hbytes : P ++ (l.elementBytes depth ⟨k, text, kids⟩ ++ rest) = (P ++ l.indentBytes depth) ++
          (k.openBytes ++ (l.lineEnd ++ (l.listBytes (depth + 1) kids ++
            (l.indentBytes depth ++ (k.closeBytes ++ (l.lineEnd ++ rest)))))) := by
        rw [Layout.elementBytes, if_neg hk]
        simp only [List.append_assoc]
      have hclose : (skipSpace l.pretty
          (l.indentBytes depth ++ (k.closeBytes ++ (l.lineEnd ++ rest)))).take 2 = [60, 47] := by
        rw [skipSpace_closeBytes (l.blank_indent depth), Kind.closeBytes_close]
      have hkids : Element.needList kids ≤ n := by
        rw [Element.need, if_neg hk] at hn
        omega
      obtain ⟨P'', hP'', hread⟩ := readChildren_listBytes l n (depth + 1) kids l.lineEnd _
        l.blank_lineEnd hclose hkids
      rw [readElement, hbytes, skipSpace_openBytes hP']
      simp only [Kind.openTag?_openBytes, Kind.ofTag?_tagBytes, hk, Bool.false_eq_true, if_false,
        hread, Option.pure_def, Option.bind_eq_bind, Option.bind_some]
      rw [← List.append_assoc, skipSpace_closeBytes (hP''.append (l.blank_indent depth)),
        Kind.closeTag?_closeBytes, Element.shown, if_neg hk]
      rfl

theorem readChildren_listBytes (l : Layout) : ∀ (n depth : Nat) (es : List Element)
    (P Q : List UInt8), l.Blank P → (skipSpace l.pretty Q).take 2 = [60, 47] →
    Element.needList es ≤ n → ∃ P', l.Blank P' ∧
      readChildren l.pretty n (P ++ (l.listBytes depth es ++ Q)) = some (Element.shownList es, P' ++ Q)
  | 0, _, es, _, _, _, _, hn => absurd hn (Nat.not_le_of_lt (Element.needList_pos es))
  | n + 1, depth, [], P, Q, hP, hQ, _ => by
    refine ⟨P, hP, ?_⟩
    rw [readChildren, Layout.listBytes, List.nil_append, Layout.skipSpace_blank_append hP, if_pos hQ,
      Element.shownList]
  | n + 1, depth, e :: es, P, Q, hP, hQ, hn => by
    have hne : e.need ≤ n := by
      rw [Element.needList] at hn
      omega
    have hnes : Element.needList es ≤ n := by
      rw [Element.needList] at hn
      omega
    -- the next bytes open an element, so the reader does not stop before it
    have hopen : (skipSpace l.pretty (P ++ (l.listBytes depth (e :: es) ++ Q))).take 2 ≠ [60, 47] := by
      obtain ⟨after, hafter⟩ := l.elementBytes_append depth e (l.listBytes depth es ++ Q)
      rw [Layout.listBytes, List.append_assoc, hafter, ← List.append_assoc,
        skipSpace_openBytes (hP.append (l.blank_indent depth))]
      exact e.kind.openBytes_not_close after
    obtain ⟨P', hP', hrest⟩ :=
      readChildren_listBytes l n depth es l.lineEnd Q l.blank_lineEnd hQ hnes
    refine ⟨P', hP', ?_⟩
    rw [readChildren, if_neg hopen, Layout.listBytes, List.append_assoc,
      readElement_elementBytes l n depth e P _ hP hne]
    simp only [Option.pure_def, Option.bind_eq_bind, Option.bind_some, hrest, Element.shownList]

end

/-! ### The `math` root -/

theorem Layout.indentBytes_zero (l : Layout) : l.indentBytes 0 = [] := by
  unfold indentBytes
  split <;> rfl

/-- The name of the root and its namespace hold no `>`. -/
theorem mathRoot_ne_close : ∀ b ∈ mathRoot, b ≠ 62 := by
  decide +kernel

theorem mathOpen_bytes :
    ("<" ++ "math" ++ (if ("xmlns=\"" ++ namespaceUri ++ "\"").isEmpty then ""
      else " " ++ ("xmlns=\"" ++ namespaceUri ++ "\"")) ++ ">").toUTF8.data.toList =
      60 :: (mathRoot ++ [62]) := by
  decide +kernel

theorem mathClose_bytes :
    ("</" ++ "math" ++ ">").toUTF8.data.toList = 60 :: 47 :: ("math".toUTF8.data.toList ++ [62]) := by
  decide +kernel

/-- The MathML text of an element: the element's own text, inside the `math` root when the
layout wraps. -/
theorem toMathML_bytes (e : Element) (l : Layout) :
    (e.toMathML l).data.toList =
      if l.wrap then
        60 :: (mathRoot ++ 62 :: (l.lineEnd ++ (l.elementBytes 1 e ++
          60 :: 47 :: ("math".toUTF8.data.toList ++ 62 :: l.lineEnd))))
      else l.elementBytes 0 e := by
  unfold Element.toMathML
  split
  · rw [Layout.closeTag_bytes, Layout.writeElement_bytes, Layout.openTag_bytes, mathOpen_bytes,
      mathClose_bytes, Layout.indentBytes_zero]
    simp
  · rw [Layout.writeElement_bytes]
    rfl

/-- Whatever the element and the layout, reading its MathML text gives back what the element
shows: every leaf's kind and text, every other element's kind and children. -/
theorem readMathML_toMathML (e : Element) (l : Layout) :
    readMathML l (e.toMathML l).data.toList = some e.shown := by
  have hneed := need_le_length l
  rw [toMathML_bytes, readMathML]
  by_cases hw : l.wrap
  · -- inside the root: the element after the root's line end, then the root's closing tag
    rw [if_pos hw, if_pos hw, skipSpace_tag, openTag?_tag mathRoot_ne_close]
    simp only [Option.bind_eq_bind, Option.bind_some, ne_eq, not_true_eq_false, if_false]
    rw [readElement_elementBytes l _ 1 e l.lineEnd _ l.blank_lineEnd (by
      have := hneed 1 e
      simp only [List.length_cons, List.length_append]
      omega)]
    simp only [Option.bind_some]
    rw [Layout.skipSpace_blank_append l.blank_lineEnd, skipSpace_tag, closeTag?_tag]
    simp only [Option.bind_some, Layout.skipSpace_blank l.blank_lineEnd, if_true]
  · rw [if_neg hw, if_neg hw]
    have hread := readElement_elementBytes l (l.elementBytes 0 e).length 0 e [] [] l.blank_nil
      (hneed 0 e)
    rw [List.nil_append, List.append_nil] at hread
    simp only [Option.bind_eq_bind, hread, Option.bind_some, List.append_nil,
      Layout.skipSpace_blank l.blank_lineEnd, if_true]

/-- A pretty, wrapped fraction over an operator whose text needs entities: the fraction's own
text is not shown, the operator's is read back through its entities. -/
theorem readMathML_fraction_escaped :
    readMathML ⟨true, true⟩ ((Element.mk .fraction "dropped".toUTF8
        [Element.glyph "<&>", Element.leaf .number "1"]).toMathML ⟨true, true⟩).data.toList =
      some ⟨.fraction, ByteArray.empty, [Element.glyph "<&>", Element.leaf .number "1"]⟩ := by
  rw [readMathML_toMathML]
  rfl

end Formula.Markup
