import Formula.Proofs.Reading
import Formula.Proofs.Assembly

/-! The grammar as a predicate on trees (`Readable`): every tree an expression reading returns is
readable and opens fewer expressions than its budget (`expression_sound`). -/

namespace Formula

/-- Whether a text is a name: a letter, then letters, digits and underscores. -/
def Ascii.isName (s : String) : Bool :=
  match s.toUTF8.data.toList with
  | b :: bs => isLetter b && bs.all isNameByte
  | [] => false

namespace Expr

/-- Whether the tree ends in a postfix `-` that the operator `op` after it would take back:
before `-` or `!=` the guard reads the operator's first byte as a prefix, so `a- - b` never
keeps its postfix. -/
def clashes : Expr → BinaryOp → Bool
  | unary op .post _ _, bop => op.val == .neg && (bop == .sub || bop == .ne)
  | _, _ => false

mutual

/-- How many expressions open one inside another below the tree: a group, each array item and
each call argument opens one; a call without arguments opens none. -/
def depth : Expr → Nat
  | unary _ _ x _ => x.depth
  | binary l _ r _ => max l.depth r.depth
  | group x _ => x.depth + 1
  | array es _ | call _ es _ => depthList es
  | num .. | var .. => 0

/-- The most expressions that open below a list of trees, each tree opening one itself. -/
def depthList : List Expr → Nat
  | [] => 0
  | e :: es => max (e.depth + 1) (depthList es)

end

theorem depthList_le {es : List Expr} {k : Nat} (h : ∀ x ∈ es, x.depth < k) :
    depthList es ≤ k := by
  induction es with
  | nil => simp [depthList]
  | cons e es ih =>
    have he := h e List.mem_cons_self
    have hs := ih fun x hx => h x (List.mem_cons_of_mem _ hx)
    simp only [depthList]
    omega

end Expr

theorem Chain.operands_append (c : Chain) (op : Spanned BinaryOp) (d : Chain) :
    (c.append op d).operands = c.operands ++ d.operands := by
  simp [operands, append]

/-- A tree opens no more expressions than the operands its binary nodes join. -/
theorem Expr.depth_le_of_spine {k : Nat} :
    ∀ {e : Expr}, (∀ x ∈ e.spine.operands, x.depth ≤ k) → e.depth ≤ k
  | binary l _ r _, h => by
    simp only [spine, Chain.operands_append, List.mem_append] at h
    have hl := depth_le_of_spine fun x hx => h x (.inl hx)
    have hr := depth_le_of_spine fun x hx => h x (.inr hx)
    simp only [depth]
    omega
  | unary .., h | group .., h | array .., h | call .., h | num .., h | var .., h =>
    h _ List.mem_cons_self

/-- The operands its binary nodes join open no more expressions than the tree. -/
theorem Expr.depth_le_of_mem_spine : ∀ {e x : Expr}, x ∈ e.spine.operands → x.depth ≤ e.depth
  | binary l _ r _, x, h => by
    simp only [spine, Chain.operands_append, List.mem_append] at h
    simp only [depth]
    rcases h with h | h
    · exact Nat.le_trans (depth_le_of_mem_spine h) (Nat.le_max_left _ _)
    · exact Nat.le_trans (depth_le_of_mem_spine h) (Nat.le_max_right _ _)
  | unary .., _, h | group .., _, h | array .., _, h | call .., _, h | num .., _, h
  | var .., _, h => by
    obtain rfl := List.mem_singleton.mp h
    exact Nat.le_refl _

/-- Whether no operand of the links, nor `x` before them, clashes with the operator after it. -/
def Link.guardedAfter : Expr → List Link → Bool
  | _, [] => true
  | x, l :: ls => !x.clashes l.op.val && guardedAfter l.operand ls

/-- The three rules of the grammar. -/
inductive Rule where
  | expression
  | unary
  | primary

/-- The trees the reader builds, by the rule that reads them. -/
inductive Readable : Rule → Expr → Prop where
  | group {x : Expr} {s : Span} (inner : Readable .expression x) : Readable .primary (.group x s)
  | array {es : List Expr} {s : Span} (nonempty : es ≠ [])
      (items : ∀ x ∈ es, Readable .expression x) : Readable .primary (.array es s)
  | call {name : Spanned String} {args : List Expr} {s : Span} (named : Ascii.isName name.val)
      (items : ∀ x ∈ args, Readable .expression x) : Readable .primary (.call name args s)
  | num {v : Int64} {s : Span} (unsigned : 0 ≤ v.toInt) : Readable .primary (.num v s)
  | var {name : String} {s : Span} (named : Ascii.isName name) : Readable .primary (.var name s)
  | plain {x : Expr} (primary : Readable .primary x) : Readable .unary x
  | affixed {op : Spanned UnaryOp} {affix : Affix} {x : Expr} {s : Span}
      (primary : Readable .primary x) : Readable .unary (.unary op affix x s)
  | chain {e : Expr} (operands : ∀ x ∈ e.spine.operands, Readable .unary x)
      (guarded : Link.guardedAfter e.spine.first e.spine.links)
      (assembled : e.spine.assemble = .ok e) : Readable .expression e

namespace Readable

theorem primary_not_binary {x : Expr} (h : Readable .primary x) : x.isBinary = false := by
  cases h <;> rfl

theorem primary_clashes {x : Expr} (h : Readable .primary x) (op : BinaryOp) :
    x.clashes op = false := by
  cases h <;> rfl

/-- A primary alone is an expression: a chain of one operand. -/
theorem of_primary {x : Expr} (h : Readable .primary x) : Readable .expression x := by
  have hsp := Expr.spine_of_isBinary h.primary_not_binary
  refine .chain ?_ ?_ ?_ <;> rw [hsp]
  · intro y hy
    obtain rfl := List.mem_singleton.mp hy
    exact .plain h
  · rfl
  · exact Chain.assemble_nil x

end Readable

namespace Cursor

/-- The name a scan reads is spelt by the name bytes at the cursor. -/
theorem identifier_bytes {c d : Cursor} {n : Spanned String} (h : c.identifier = .ok (n, d)) :
    n.val.toUTF8.data.toList = c.ahead.takeWhile Ascii.isNameByte := by
  obtain ⟨-, -, rfl⟩ := identifier_eq_ok h
  rw [Ascii.toText_bytes, (takeWhile_eq _ c).1]
  rw [(takeWhile_eq _ c).1]
  intro b hb
  exact Ascii.lt_of_isNameByte (List.all_eq_true.mp List.all_takeWhile b hb)

theorem isName_of_identifier {c d : Cursor} {n : Spanned String} (h : c.identifier = .ok (n, d)) :
    Ascii.isName n.val = true := by
  have hl := (identifier_eq_ok h).1
  rw [peek_eq] at hl
  unfold Ascii.isName
  rw [identifier_bytes h]
  cases hc : c.ahead with
  | nil => simp [hc] at hl; exact absurd hl (by decide)
  | cons b bs =>
    simp only [hc, List.headD_cons] at hl
    simp [Ascii.isNameByte_of_isLetter hl, hl]

theorem unsigned_of_number {c d : Cursor} {n : Spanned Int64} (hd : Ascii.isDigit c.peek = true)
    (h : c.number = .ok (n, d)) : 0 ≤ n.val.toInt := by
  rw [(number_eq_ok hd h).2.1]
  omega

end Cursor

theorem binaryAt_minus (rest : List UInt8) : binaryAt (45 :: rest) = some .sub := by
  simp [binaryAt, Cursor.firstOp, BinaryOp.all, BinaryOp.spelling_bytes, List.find?,
    List.isPrefixOf_cons_cons]

/-- A postfix `-` that the guard accepted is never followed by `-` or `!=`. -/
theorem postfix_clashes {c d : Cursor} {op : Spanned UnaryOp} {bop : BinaryOp} (x : Expr) (s : Span)
    (hp : c.postfixOp? = some (op, d)) (hb : binaryAt d.skipBlanks.ahead = some bop) :
    (Expr.unary op .post x s).clashes bop = false := by
  obtain ⟨hu, hlen, -, hn⟩ := Cursor.postfixOp?_eq_some hp
  obtain ⟨-, -, hc, -⟩ := Cursor.unaryOp?_eq_some hu
  unfold Expr.clashes
  by_cases hneg : op.val = .neg
  · by_cases hbop : bop = .sub ∨ bop = .ne
    · have hsub : c.binaryLength = op.val.spelling.toUTF8.size := by
        rw [Cursor.binaryLength_eq, hc, hneg]
        simp [UnaryOp.spelling_bytes, binaryAt_minus]
        rfl
      have hnone := Cursor.unaryOp?_eq_none.mp (hn hsub.symm)
      have hsome := unaryAt_of_binaryAt hb hbop
      simp [hnone] at hsome
    · simp only [not_or] at hbop
      simp [hbop.1, hbop.2]
  · simp [hneg]

namespace Reader

theorem primary_isBinary {mode : Mode} {expr : Reader Expr} {r r' : Reading} {e : Expr}
    (h : primary mode expr r = .ok e r') : e.isBinary = false := by
  rcases primary_eq_ok.mp h with ⟨-, -, -, -, -, -, rfl⟩ | ⟨-, -, -, -, -, -, -, -, rfl⟩ |
      ⟨-, -, -, -, -, -, -, -, -, -, rfl⟩ | ⟨-, -, -, -, -, -, -, rfl, -⟩ |
      ⟨-, -, -, -, -, -, -, -, rfl, -⟩ <;> rfl

/-- A unary reading never returns a binary node: assembly alone builds those. -/
theorem unary_isBinary {mode : Mode} {expr : Reader Expr} {r r' : Reading} {e : Expr}
    (h : unary mode expr r = .ok e r') : e.isBinary = false := by
  rcases unary_eq_ok.mp h with ⟨-, -, -, -, -, rfl⟩ | ⟨-, x, s, hp, ⟨-, -, -, rfl, -⟩ | ⟨-, rfl, -⟩⟩
  · rfl
  · rfl
  · exact primary_isBinary hp

/-- Every item that a run of items adds is a tree that the expression reader returned, and
there is at least one. -/
theorem items_each {expr : Reader Expr} {P : Expr → Prop}
    (hp : ∀ {r r' : Reading} {e : Expr}, expr r = .ok e r' → P e) :
    ∀ {n : Nat} {acc : Array Expr} {r r' : Reading} {es : List Expr},
      items expr n acc r = .ok es r' → ∃ es₁, es = acc.toList ++ es₁ ∧ es₁ ≠ [] ∧ ∀ x ∈ es₁, P x
  | 0, _, _, _, _, h => by
    obtain ⟨e, s, he, rfl, -⟩ := items_zero_eq_ok.mp h
    exact ⟨[e], by simp, by simp, by simpa using hp he⟩
  | n + 1, _, _, _, _, h => by
    obtain ⟨e, s, he, ⟨c, -, hi⟩ | ⟨-, rfl, -⟩⟩ := items_succ_eq_ok.mp h
    · obtain ⟨es₁, rfl, -, hes⟩ := items_each hp hi
      refine ⟨e :: es₁, by simp, by simp, ?_⟩
      rintro x (_ | ⟨_, hm⟩)
      · exact hp he
      · exact hes x hm
    · exact ⟨[e], by simp, by simp, by simpa using hp he⟩

/-- Every link that a run of links adds has an operand that the operand reader returned. -/
theorem links_each {operand : Reader Expr} {P : Expr → Prop}
    (hp : ∀ {r r' : Reading} {e : Expr}, operand r = .ok e r' → P e) :
    ∀ {n : Nat} {acc : Array Link} {r r' : Reading} {ls : List Link},
      links operand n acc r = .ok ls r' → ∃ ls₁, ls = acc.toList ++ ls₁ ∧ ∀ l ∈ ls₁, P l.operand
  | 0, _, _, _, _, h => by
    obtain ⟨rfl, -⟩ := links_zero_eq_ok.mp h
    exact ⟨[], by simp, by simp⟩
  | n + 1, _, _, _, _, h => by
    rcases links_succ_eq_ok.mp h with ⟨-, rfl, -⟩ | ⟨op, d, u, s, -, hu, hl⟩
    · exact ⟨[], by simp, by simp⟩
    · obtain ⟨ls₁, rfl, hall⟩ := links_each hp hl
      refine ⟨⟨op, u⟩ :: ls₁, by simp, ?_⟩
      rintro l (_ | ⟨_, hm⟩)
      · exact hp hu
      · exact hall l hm

/-- A level's tree has for its spine the operands and operators the level read: assembly only
puts them together. -/
theorem level_spine {mode : Mode} {expr : Reader Expr} {r r' : Reading} {e : Expr}
    (h : level mode expr r = .ok e r') : ∃ first s ls, unary mode expr r = .ok first s ∧
      links (unary mode expr) s.cursor.skipBlanks.unread #[] ⟨s.cursor.skipBlanks, s.warnings⟩ =
        .ok ls r' ∧ (Chain.mk first ls).assemble = .ok e ∧ e.spine = ⟨first, ls⟩ := by
  obtain ⟨first, s, ls, hf, hl, ha⟩ := level_eq_ok.mp h
  obtain ⟨ls₁, hls, hnb⟩ := links_each unary_isBinary hl
  rw [Array.toList_empty, List.nil_append] at hls
  subst hls
  have hops : ∀ y ∈ (Chain.mk first ls).operands, y.isBinary = false := by
    rintro y (_ | ⟨_, hy⟩)
    · exact unary_isBinary hf
    · obtain ⟨l, hm, rfl⟩ := List.mem_map.mp hy
      exact hnb l hm
  exact ⟨first, s, ls, hf, hl, ha, Chain.spine_assemble hops ha⟩

section Sound

variable {mode : Mode} {expr : Reader Expr} {k : Nat}
  (hx : ∀ {r r' : Reading} {e : Expr}, expr r = .ok e r' → Readable .expression e ∧ e.depth < k)
include hx

theorem primary_sound {r r' : Reading} {e : Expr} (h : primary mode expr r = .ok e r') :
    Readable .primary e ∧ e.depth ≤ k := by
  rcases primary_eq_ok.mp h with ⟨d, inner, s, -, hi, -, rfl⟩ | ⟨-, d, elems, s, -, hi, -, rfl⟩ |
      ⟨-, -, -, name, d, args, s, hn, ha, -, rfl⟩ | ⟨-, -, -, hd, n, d, hn, rfl, -⟩ |
      ⟨-, -, -, -, -, n, d, hn, rfl, -⟩
  · obtain ⟨hr, hd⟩ := hx hi
    exact ⟨.group hr, by simp only [Expr.depth]; omega⟩
  · obtain ⟨es, hes, hne, hall⟩ := items_each hx hi
    simp only [List.nil_append] at hes
    subst hes
    exact ⟨.array hne fun x hm => (hall x hm).1, Expr.depthList_le fun x hm => (hall x hm).2⟩
  · have hall : ∀ x ∈ args, Readable .expression x ∧ x.depth < k := by
      split at ha
      · simp [ha.1]
      · obtain ⟨es, hes, -, hall⟩ := items_each hx ha
        simpa [hes] using hall
    exact ⟨.call (Cursor.isName_of_identifier hn) fun x hm => (hall x hm).1,
      Expr.depthList_le fun x hm => (hall x hm).2⟩
  · exact ⟨.num (Cursor.unsigned_of_number hd hn), Nat.zero_le k⟩
  · exact ⟨.var (Cursor.isName_of_identifier hn), Nat.zero_le k⟩

/-- A unary operand is readable, and it does not clash with a binary operator after it. -/
theorem unary_sound {r r' : Reading} {e : Expr} (h : unary mode expr r = .ok e r') :
    Readable .unary e ∧ e.depth ≤ k ∧
      ∀ op, binaryAt r'.cursor.skipBlanks.ahead = some op → e.clashes op = false := by
  rcases unary_eq_ok.mp h with ⟨op, d, x, -, hp, rfl⟩ |
      ⟨-, x, s, hp, ⟨op, d, hpost, rfl, rfl⟩ | ⟨-, rfl, rfl⟩⟩
  · obtain ⟨hr, hd⟩ := primary_sound hx hp
    exact ⟨.affixed hr, hd, fun _ _ => rfl⟩
  · obtain ⟨hr, hd⟩ := primary_sound hx hp
    exact ⟨.affixed hr, hd, fun _ hb => postfix_clashes x _ hpost hb⟩
  · obtain ⟨hr, hd⟩ := primary_sound hx hp
    exact ⟨.plain hr, hd, fun op _ => hr.primary_clashes op⟩

theorem links_sound : ∀ {n : Nat} {acc : Array Link} {r r' : Reading} {ls : List Link} {x : Expr},
    (∀ op, binaryAt r.cursor.ahead = some op → x.clashes op = false) →
    links (unary mode expr) n acc r = .ok ls r' →
      ∃ ls₁, ls = acc.toList ++ ls₁ ∧ Link.guardedAfter x ls₁ ∧
        ∀ l ∈ ls₁, Readable .unary l.operand ∧ l.operand.depth ≤ k
  | 0, _, _, _, _, _, _, h => by
    obtain ⟨rfl, -⟩ := links_zero_eq_ok.mp h
    exact ⟨[], by simp, rfl, by simp⟩
  | n + 1, _, _, _, _, _, hc, h => by
    rcases links_succ_eq_ok.mp h with ⟨-, rfl, -⟩ | ⟨op, d, u, s, hb, hu, hl⟩
    · exact ⟨[], by simp, rfl, by simp⟩
    · obtain ⟨hr, hd, hcu⟩ := unary_sound hx hu
      obtain ⟨ls₁, rfl, hg, hall⟩ := links_sound hcu hl
      refine ⟨⟨op, u⟩ :: ls₁, by simp, ?_, ?_⟩
      · simp [Link.guardedAfter, hc op.val (Cursor.binaryOp?_eq_some hb).1, hg]
      · rintro l (_ | ⟨_, hm⟩)
        · exact ⟨hr, hd⟩
        · exact hall l hm

theorem level_sound {r r' : Reading} {e : Expr} (h : level mode expr r = .ok e r') :
    Readable .expression e ∧ e.depth ≤ k := by
  obtain ⟨first, s, ls, hf, hl, ha, hsp⟩ := level_spine h
  obtain ⟨hr, hd, hc⟩ := unary_sound hx hf
  obtain ⟨ls₁, hls, hg, hall⟩ := links_sound hx hc hl
  simp only [List.nil_append] at hls
  subst hls
  have hops : ∀ y ∈ (Chain.mk first ls).operands, Readable .unary y ∧ y.depth ≤ k := by
    rintro y (_ | ⟨_, hy⟩)
    · exact ⟨hr, hd⟩
    · obtain ⟨l, hm, rfl⟩ := List.mem_map.mp hy
      exact hall l hm
  refine ⟨.chain ?_ ?_ ?_, Expr.depth_le_of_spine ?_⟩ <;> rw [hsp]
  · exact fun y hy => (hops y hy).1
  · exact hg
  · exact ha
  · exact fun y hy => (hops y hy).2

end Sound

/-- Every tree an expression reading returns is readable, and opens fewer expressions than the
budget it was read with. -/
theorem expression_sound {mode : Mode} : ∀ {b : Nat} {r r' : Reading} {e : Expr},
    expression mode b r = .ok e r' → Readable .expression e ∧ e.depth < b
  | 0, _, _, _, h => absurd h expression_zero_ne_ok
  | b + 1, _, _, _, h => by
    obtain ⟨hr, hd⟩ := level_sound (fun h' => expression_sound h') h
    exact ⟨hr, Nat.lt_succ_of_le hd⟩

end Reader

/-- Every tree a reading of a text returns is readable, and opens fewer expressions than the
budget. -/
theorem parseWithin_sound {b : Nat} {text : ByteArray} {mode : Mode} {e : Expr}
    (h : (Expr.parseWithin b text mode).result = .ok e) : Readable .expression e ∧ e.depth < b := by
  obtain ⟨r', hr⟩ := parseWithin_eq_ok.mp h
  obtain ⟨s, hx, -⟩ := Reader.document_eq_ok.mp hr
  exact Reader.expression_sound hx

end Formula
