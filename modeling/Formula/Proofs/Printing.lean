import Formula.Expr.Source
import Formula.Proofs.Readable

/-! The bytes of a tree's source text (`toSource_bytes`): through the spine, its chain's operands
with each operator between two blanks (`sourceBytes_spine`). -/

namespace Formula

namespace Ascii

/-- An ASCII character is encoded as its one byte. -/
theorem char_bytes {c : Char} (h : c.toNat < 128) : [c].utf8Encode.data.toList = [c.toNat.toUInt8] := by
  have := toChar_bytes (b := c.toNat.toUInt8) (by rw [UInt8.lt_iff_toNat_lt]; simp; omega)
  simpa [toChar, Nat.mod_eq_of_lt (Nat.lt_trans h (by decide : 128 < 256))] using this

theorem ofList_bytes {l : List Char} (h : ∀ c ∈ l, c.toNat < 128) :
    (String.ofList l).toUTF8.data.toList = l.map (·.toNat.toUInt8) := by
  induction l with
  | nil => rfl
  | cons c l ih =>
    have hl := ih fun d hd => h d (List.mem_cons_of_mem _ hd)
    simp only [String.toUTF8_eq_toByteArray, String.toByteArray_ofList] at hl ⊢
    rw [List.utf8Encode_cons, ByteArray.data_append, Array.toList_append,
      char_bytes (h c List.mem_cons_self), hl]
    rfl

theorem toNat_lt_of_mem_toDigits {n : Nat} {c : Char} (hc : c ∈ Nat.toDigits 10 n) : c.toNat < 58 := by
  have := Nat.isDigit_of_mem_toDigits (by decide) (by decide) hc
  simp only [Char.isDigit, Bool.and_eq_true, decide_eq_true_eq] at this
  have h : c.val.toNat ≤ 57 := UInt32.le_iff_toNat_le.mp this.2
  exact Nat.lt_succ_of_le h

/-- The decimal numeral of `n` is spelt by the bytes of its digits. -/
theorem natDecimal_bytes (n : Nat) :
    (natDecimal n).toUTF8.data.toList = (Nat.toDigits 10 n).map (·.toNat.toUInt8) :=
  ofList_bytes fun _ hc => Nat.lt_trans (toNat_lt_of_mem_toDigits hc) (by decide)

end Ascii

namespace Expr

mutual

/-- The bytes of the source text of a tree. -/
def sourceBytes : Expr → List UInt8
  | unary op .pre x _ => op.val.spelling.toUTF8.data.toList ++ x.sourceBytes
  | unary op .post x _ => x.sourceBytes ++ op.val.spelling.toUTF8.data.toList
  | binary l op r _ =>
    l.sourceBytes ++ 32 :: op.val.spelling.toUTF8.data.toList ++ 32 :: r.sourceBytes
  | group x _ => 40 :: x.sourceBytes ++ [41]
  | array es _ => 91 :: listBytes es ++ [93]
  | call name as _ => name.val.toUTF8.data.toList ++ 40 :: listBytes as ++ [41]
  | num v _ => (Ascii.intDecimal v.toInt).toUTF8.data.toList
  | var name _ => name.toUTF8.data.toList

/-- The bytes of the source texts of a list of trees, separated by commas. -/
def listBytes : List Expr → List UInt8
  | [] => []
  | [e] => e.sourceBytes
  | e :: e' :: es => e.sourceBytes ++ 44 :: listBytes (e' :: es)

end

theorem bytes_append (s t : String) :
    (s ++ t).toUTF8.data.toList = s.toUTF8.data.toList ++ t.toUTF8.data.toList := by
  simp [String.toByteArray_append]

theorem bytes_push (s : String) (c : Char) (h : c.toNat < 128) :
    (s.push c).toUTF8.data.toList = s.toUTF8.data.toList ++ [c.toNat.toUInt8] := by
  simp [String.toByteArray_push, Ascii.char_bytes h]

mutual

theorem writeSource_bytes : ∀ (e : Expr) (out : String),
    (e.writeSource out).toUTF8.data.toList = out.toUTF8.data.toList ++ e.sourceBytes
  | unary op .pre x _, out => by
    rw [writeSource, writeSource_bytes x, bytes_append, sourceBytes, List.append_assoc]
  | unary op .post x _, out => by
    rw [writeSource, bytes_append, writeSource_bytes x, sourceBytes, List.append_assoc]
  | binary l op r _, out => by
    rw [writeSource, writeSource_bytes r, bytes_append, bytes_append, bytes_append,
      writeSource_bytes l, sourceBytes]
    simp [show " ".toByteArray.data.toList = [32] by decide]
  | group x _, out => by
    rw [writeSource, bytes_push _ _ (by decide), writeSource_bytes x, bytes_push _ _ (by decide),
      sourceBytes]
    simp
  | array es _, out => by
    rw [writeSource, bytes_push _ _ (by decide), writeSourceList_bytes es,
      bytes_push _ _ (by decide), sourceBytes]
    simp
  | call name as _, out => by
    rw [writeSource, bytes_push _ _ (by decide), writeSourceList_bytes as,
      bytes_push _ _ (by decide), bytes_append, sourceBytes]
    simp
  | num v _, out => by rw [writeSource, bytes_append, sourceBytes]
  | var name _, out => by rw [writeSource, bytes_append, sourceBytes]

theorem writeSourceList_bytes : ∀ (es : List Expr) (out : String),
    (writeSourceList es out).toUTF8.data.toList = out.toUTF8.data.toList ++ listBytes es
  | [], out => by simp [writeSourceList, listBytes]
  | [e], out => by rw [writeSourceList, writeSource_bytes e, listBytes]
  | e :: e' :: es, out => by
    rw [writeSourceList.eq_3 out e (e' :: es) (List.cons_ne_nil _ _),
      writeSourceList_bytes (e' :: es), bytes_push _ _ (by decide),
      writeSource_bytes e, listBytes]
    simp

end

/-- The source text of a tree is spelt by `sourceBytes`. -/
theorem toSource_bytes (e : Expr) : e.toSource.toUTF8.data.toList = e.sourceBytes := by
  rw [toSource, writeSource_bytes]
  simp

end Expr

namespace Ascii

theorem isDigit_of_mem_decimal {n : Nat} {b : UInt8}
    (hb : b ∈ (natDecimal n).toUTF8.data.toList) : isDigit b = true := by
  rw [natDecimal_bytes] at hb
  obtain ⟨c, hc, rfl⟩ := List.mem_map.mp hb
  have hd := Nat.isDigit_of_mem_toDigits (by decide) (by decide) hc
  have hlt := toNat_lt_of_mem_toDigits hc
  simp only [Char.isDigit, Bool.and_eq_true, decide_eq_true_eq] at hd
  have h0 : 48 ≤ c.val.toNat := UInt32.le_iff_toNat_le.mp hd.1
  have hc : c.toNat = c.val.toNat := rfl
  simp only [isDigit, Bool.and_eq_true, decide_eq_true_eq, UInt8.le_iff_toNat_le]
  constructor <;> simp <;> omega

/-- Reading the digits of a decimal numeral back gives its value. -/
theorem decimal_value (n : Nat) :
    (natDecimal n).toUTF8.data.toList.foldl (fun v b => 10 * v + (b.toNat - 48)) 0 = n := by
  rw [natDecimal_bytes, List.foldl_map]
  conv => rhs; rw [← Nat.ofDigitChars_ten_toDigits (n := n)]
  rw [Nat.ofDigitChars_eq_foldl]
  refine List.foldl_ext _ _ _ fun v c hc => ?_
  have hlt := toNat_lt_of_mem_toDigits hc
  simp [Nat.mod_eq_of_lt (Nat.lt_trans hlt (by decide : 58 < 256))]

theorem decimal_ne_nil (n : Nat) : (natDecimal n).toUTF8.data.toList ≠ [] := by
  rw [natDecimal_bytes]
  simp [Nat.toDigits_ne_nil]

end Ascii

namespace Chain

/-- The bytes of links: each operator between two blanks, then its operand. -/
def linkBytes : List Link → List UInt8
  | [] => []
  | l :: ls => 32 :: l.op.val.spelling.toUTF8.data.toList ++ 32 :: l.operand.sourceBytes ++ linkBytes ls

/-- The bytes of a chain's source: its first operand, then its links. -/
def sourceBytes (c : Chain) : List UInt8 := c.first.sourceBytes ++ linkBytes c.links

theorem linkBytes_append (ls ls' : List Link) :
    linkBytes (ls ++ ls') = linkBytes ls ++ linkBytes ls' := by
  induction ls with
  | nil => rfl
  | cons l ls ih => simp [linkBytes, ih]

theorem sourceBytes_append (c : Chain) (op : Spanned BinaryOp) (d : Chain) :
    (c.append op d).sourceBytes =
      c.sourceBytes ++ 32 :: op.val.spelling.toUTF8.data.toList ++ 32 :: d.sourceBytes := by
  simp [sourceBytes, append, linkBytes_append, linkBytes]

end Chain

/-- A tree's source is that of its chain: the binary nodes' operators between blanks. -/
theorem Expr.sourceBytes_spine : ∀ e : Expr, e.spine.sourceBytes = e.sourceBytes
  | .binary l op r _ => by
    rw [spine, Chain.sourceBytes_append, sourceBytes_spine l, sourceBytes_spine r, sourceBytes]
  | .unary .. | .group .. | .array .. | .call .. | .num .. | .var .. => by
    simp [spine, Chain.sourceBytes, Chain.linkBytes]

namespace Readable

/-- A readable primary's source opens with `(`, `[`, a letter or a digit. -/
theorem primary_bytes {x : Expr} (h : Readable .primary x) :
    ∃ b bs, x.sourceBytes = b :: bs ∧ Ascii.opensPrimary b = true := by
  cases h with
  | group => exact ⟨_, _, rfl, by decide⟩
  | array => exact ⟨_, _, rfl, by decide⟩
  | @call name args _ named =>
    unfold Ascii.isName at named
    split at named
    · rename_i b bs hb
      simp only [Bool.and_eq_true] at named
      refine ⟨b, bs ++ 40 :: Expr.listBytes args ++ [41], ?_, by simp [Ascii.opensPrimary, named.1]⟩
      rw [Expr.sourceBytes, hb]
      simp
    · cases named
  | @num v _ unsigned =>
    have hv : Ascii.intDecimal v.toInt = Ascii.natDecimal v.toInt.natAbs := by
      simp [Ascii.intDecimal, Int.not_lt.mpr unsigned]
    obtain ⟨b, bs, hb⟩ := List.exists_cons_of_ne_nil (Ascii.decimal_ne_nil v.toInt.natAbs)
    have hd := Ascii.isDigit_of_mem_decimal (hb ▸ List.mem_cons_self : b ∈ _)
    exact ⟨b, bs, by simp only [Expr.sourceBytes, hv, hb], by simp [Ascii.opensPrimary, hd]⟩
  | @var name _ named =>
    unfold Ascii.isName at named
    split at named
    · rename_i b bs hb
      simp only [Bool.and_eq_true] at named
      exact ⟨b, bs, by rw [Expr.sourceBytes, hb], by simp [Ascii.opensPrimary, named.1]⟩
    · cases named

end Readable

/-- Bytes that can begin an operand: those that open a primary, and the first bytes `+`, `-`
and `!` of the unary operators. -/
def Ascii.opensOperand (b : UInt8) : Bool := opensPrimary b || b == 43 || b == 45 || b == 33

theorem Ascii.opensOperand_of_opensPrimary {b : UInt8} (h : opensPrimary b = true) :
    opensOperand b = true := by
  simp [opensOperand, h]

theorem Ascii.isBlank_of_opensOperand {b : UInt8} (h : opensOperand b = true) :
    isBlank b = false := by
  cases hb : isBlank b
  · rfl
  · simp only [isBlank, Bool.or_eq_true, beq_iff_eq] at hb
    rcases hb with ((rfl | rfl) | rfl) | rfl <;> exact absurd h (by decide)

theorem UnaryOp.spelling_head (op : UnaryOp) :
    ∃ b bs, op.spelling.toUTF8.data.toList = b :: bs ∧ Ascii.opensOperand b = true := by
  cases op
  · exact ⟨43, [43], rfl, rfl⟩
  · exact ⟨45, [45], rfl, rfl⟩
  · exact ⟨33, [], rfl, rfl⟩
  · exact ⟨45, [], rfl, rfl⟩

theorem Readable.unary_bytes {x : Expr} (h : Readable .unary x) :
    ∃ b bs, x.sourceBytes = b :: bs ∧ Ascii.opensOperand b = true := by
  cases h with
  | plain hp =>
    obtain ⟨b, bs, hb, ho⟩ := hp.primary_bytes
    exact ⟨b, bs, hb, Ascii.opensOperand_of_opensPrimary ho⟩
  | @affixed op affix _ _ hp =>
    obtain ⟨b, bs, hb, ho⟩ := hp.primary_bytes
    cases affix with
    | post =>
      exact ⟨b, bs ++ op.val.spelling.toUTF8.data.toList, by simp [Expr.sourceBytes, hb],
        Ascii.opensOperand_of_opensPrimary ho⟩
    | pre =>
      obtain ⟨c, cs, hc, hn⟩ := op.val.spelling_head
      exact ⟨c, cs ++ _, by rw [Expr.sourceBytes, hc, List.cons_append], hn⟩

/-- The source of a readable tree opens with a byte that can begin an operand. -/
theorem Readable.sourceBytes_head {rule : Rule} {x : Expr} (h : Readable rule x) :
    ∃ b bs, x.sourceBytes = b :: bs ∧ Ascii.opensOperand b = true := by
  cases rule with
  | primary =>
    obtain ⟨b, bs, hb, ho⟩ := h.primary_bytes
    exact ⟨b, bs, hb, Ascii.opensOperand_of_opensPrimary ho⟩
  | unary => exact h.unary_bytes
  | expression =>
    cases h with
    | chain hops =>
      obtain ⟨b, bs, hb, hn⟩ := (hops _ List.mem_cons_self).unary_bytes
      refine ⟨b, bs ++ Chain.linkBytes x.spine.links, ?_, hn⟩
      rw [← Expr.sourceBytes_spine, Chain.sourceBytes, hb, List.cons_append]

/-- Blanks before the source of a readable tree: there are none to skip. -/
theorem Readable.dropWhile_blank {rule : Rule} {x : Expr} (h : Readable rule x) (rest : List UInt8) :
    (x.sourceBytes ++ rest).dropWhile Ascii.isBlank = x.sourceBytes ++ rest := by
  obtain ⟨b, bs, hb, hn⟩ := h.sourceBytes_head
  rw [hb, List.cons_append, List.dropWhile_cons_of_neg (by simp [Ascii.isBlank_of_opensOperand hn])]

end Formula
