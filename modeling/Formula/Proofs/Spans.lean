import Formula.Proofs.Visible

/-! Where the nodes of a tree lie in a text: `Located` nodes and `Tight` spans, and the rows of
spans `InTurn` whose binary nodes assembly lays located (`Expr.lays_of_spine`). -/

namespace Formula

namespace Expr

@[simp] theorem span_unary (op : Spanned UnaryOp) (a : Affix) (x : Expr) (s : Span) :
    (unary op a x s).span = s := rfl

@[simp] theorem span_binary (l : Expr) (op : Spanned BinaryOp) (r : Expr) (s : Span) :
    (binary l op r s).span = s := rfl

@[simp] theorem span_group (x : Expr) (s : Span) : (group x s).span = s := rfl

@[simp] theorem span_array (es : List Expr) (s : Span) : (array es s).span = s := rfl

@[simp] theorem span_call (name : Spanned String) (as : List Expr) (s : Span) :
    (call name as s).span = s := rfl

@[simp] theorem span_num (v : Int64) (s : Span) : (num v s).span = s := rfl

@[simp] theorem span_var (name : String) (s : Span) : (var name s).span = s := rfl

mutual

/-- The nodes of a tree, the tree itself first, in pre-order. -/
def nodes : Expr → List Expr
  | e@(unary _ _ x _) => e :: x.nodes
  | e@(binary l _ r _) => e :: (l.nodes ++ r.nodes)
  | e@(group x _) => e :: x.nodes
  | e@(array es _) => e :: nodesList es
  | e@(call _ as _) => e :: nodesList as
  | e@(num ..) => [e]
  | e@(var ..) => [e]

/-- The nodes of the trees of a list, tree by tree. -/
def nodesList : List Expr → List Expr
  | [] => []
  | e :: es => e.nodes ++ nodesList es

end

theorem nodesList_eq (es : List Expr) : nodesList es = es.flatMap nodes := by
  induction es with
  | nil => rfl
  | cons e es ih => rw [nodesList, ih, List.flatMap_cons]

theorem nodes_eq (e : Expr) : e.nodes = e :: e.children.flatMap nodes := by
  cases e <;> simp [nodes, children, nodesList_eq]

theorem mem_nodes_self (e : Expr) : e ∈ e.nodes := by
  rw [nodes_eq]
  exact List.mem_cons_self

/-- A node of a subtree is a node of the tree. -/
theorem mem_nodes_of_child {e c x : Expr} (hc : c ∈ e.children) (hx : x ∈ c.nodes) :
    x ∈ e.nodes := by
  rw [nodes_eq]
  exact List.mem_cons_of_mem _ (List.mem_flatMap.mpr ⟨c, hc, hx⟩)

theorem mem_nodes {e x : Expr} : x ∈ e.nodes ↔ x = e ∨ ∃ c ∈ e.children, x ∈ c.nodes := by
  rw [nodes_eq, List.mem_cons, List.mem_flatMap]

mutual

/-- A node of a node of a tree is a node of the tree. -/
theorem nodes_trans {x y : Expr} : ∀ {e : Expr}, x ∈ e.nodes → y ∈ x.nodes → y ∈ e.nodes
  | unary _ _ z _, hx, hy | group z _, hx, hy => by
    rcases List.mem_cons.mp hx with rfl | hx
    · exact hy
    · exact List.mem_cons_of_mem _ (nodes_trans hx hy)
  | binary l _ r _, hx, hy => by
    rcases List.mem_cons.mp hx with rfl | hx
    · exact hy
    · rcases List.mem_append.mp hx with hx | hx
      · exact List.mem_cons_of_mem _ (List.mem_append_left _ (nodes_trans hx hy))
      · exact List.mem_cons_of_mem _ (List.mem_append_right _ (nodes_trans hx hy))
  | array es _, hx, hy | call _ es _, hx, hy => by
    rcases List.mem_cons.mp hx with rfl | hx
    · exact hy
    · exact List.mem_cons_of_mem _ (nodesList_trans hx hy)
  | num .., hx, hy | var .., hx, hy => by
    obtain rfl := List.mem_singleton.mp hx
    exact hy

theorem nodesList_trans {x y : Expr} : ∀ {es : List Expr}, x ∈ nodesList es → y ∈ x.nodes →
    y ∈ nodesList es
  | [], hx, _ => by simp [nodesList] at hx
  | _ :: _, hx, hy => by
    rcases List.mem_append.mp hx with hx | hx
    · exact List.mem_append_left _ (nodes_trans hx hy)
    · exact List.mem_append_right _ (nodesList_trans hx hy)

end

/-- The spans of a node's parts in the order of the text: its subtrees, and the operator or the
name of a call that stands among them. -/
def partSpans : Expr → List Span
  | unary op .pre x _ => [op.span, x.span]
  | unary op .post x _ => [x.span, op.span]
  | binary l op r _ => [l.span, op.span, r.span]
  | group x _ => [x.span]
  | array es _ => es.map span
  | call name as _ => name.span :: as.map span
  | num .. | var .. => []

end Expr

/-- The bytes of `text` that a span covers. -/
def Span.slice (s : Span) (text : List UInt8) : List UInt8 := text.extract s.start s.stop

/-- A span whose first and last bytes are not blanks. -/
def Span.Tight (text : List UInt8) (s : Span) : Prop :=
  s.start < s.stop ∧ Ascii.isBlank (text.getD s.start 0) = false ∧
    Ascii.isBlank (text.getD (s.stop - 1) 0) = false

namespace Expr

/-- What the text shows of a node of each kind: an operator is spelt where its span says, a
binary node spans from the start of its left operand to the end of its right one, an array has an
item, the name of a call and a name are names spelt where their spans say, and a number covers a
run of digits whose value it is. -/
def Reads (text : List UInt8) : Expr → Prop
  | unary op _ _ _ => op.span.slice text = op.val.spelling.toUTF8.data.toList
  | binary l op r s =>
    op.span.slice text = op.val.spelling.toUTF8.data.toList ∧ s = ⟨l.span.start, r.span.stop⟩
  | group .. => True
  | array es _ => es ≠ []
  | call name _ _ => name.span.slice text = name.val.toUTF8.data.toList ∧ Ascii.isName name.val = true
  | num v s => s.slice text ≠ [] ∧ (∀ b ∈ s.slice text, Ascii.isDigit b = true) ∧
      (Ascii.digitsOf (s.slice text) : Int) = v.toInt
  | var name s => s.slice text = name.toUTF8.data.toList ∧ Ascii.isName name = true

/-- A node as the text lays it out: its span fits the text, the spans of its parts lie inside it,
each ending before the next begins, and the text shows what the node is. -/
structure Located (text : List UInt8) (x : Expr) : Prop where
  fits : x.span.start ≤ x.span.stop ∧ x.span.stop ≤ text.length
  inside : ∀ p ∈ x.partSpans, p.start ≤ p.stop ∧ x.span.start ≤ p.start ∧ p.stop ≤ x.span.stop
  ordered : x.partSpans.IsChain fun p q => p.stop ≤ q.start
  reads : x.Reads text

end Expr

/-! ### Spans in turn -/

namespace Span

/-- The ends of spans in turn. -/
def bounds (ss : List Span) : List Nat := ss.flatMap fun s => [s.start, s.stop]

/-- Spans that lie in turn between `a` and `b`: each starts no earlier than the last one ends,
and none starts before its end. -/
def InTurn (a : Nat) (ss : List Span) (b : Nat) : Prop := (a :: bounds ss ++ [b]).IsChain (· ≤ ·)

@[simp] theorem bounds_nil : bounds [] = [] := rfl

@[simp] theorem bounds_cons (s : Span) (ss : List Span) :
    bounds (s :: ss) = s.start :: s.stop :: bounds ss := rfl

theorem inTurn_nil {a b : Nat} : InTurn a [] b ↔ a ≤ b := by
  simp [InTurn]

theorem inTurn_cons {a b : Nat} {s : Span} {ss : List Span} :
    InTurn a (s :: ss) b ↔ a ≤ s.start ∧ s.start ≤ s.stop ∧ InTurn s.stop ss b := by
  simp [InTurn, List.isChain_cons_cons]

/-- Rows in turn, one after the other, are a row in turn. -/
theorem InTurn.append {a m b : Nat} {ss ss' : List Span} (h : InTurn a ss m) (h' : InTurn m ss' b) :
    InTurn a (ss ++ ss') b := by
  induction ss generalizing a with
  | nil =>
    rw [inTurn_nil] at h
    cases ss' with
    | nil => exact inTurn_nil.mpr (Nat.le_trans h (inTurn_nil.mp h'))
    | cons s ss' =>
      obtain ⟨h₁, h₂, h₃⟩ := inTurn_cons.mp h'
      exact inTurn_cons.mpr ⟨Nat.le_trans h h₁, h₂, h₃⟩
  | cons s ss ih =>
    obtain ⟨h₁, h₂, h₃⟩ := inTurn_cons.mp h
    exact inTurn_cons.mpr ⟨h₁, h₂, ih h₃⟩

/-- A row in turn splits before any of its spans. -/
theorem InTurn.split {a b : Nat} {ss ss' : List Span} {s : Span} (h : InTurn a (ss ++ s :: ss') b) :
    InTurn a ss s.start ∧ InTurn s.start (s :: ss') b := by
  induction ss generalizing a with
  | nil =>
    obtain ⟨h₁, h₂, h₃⟩ := inTurn_cons.mp h
    exact ⟨inTurn_nil.mpr h₁, inTurn_cons.mpr ⟨Nat.le_refl _, h₂, h₃⟩⟩
  | cons t ss ih =>
    obtain ⟨h₁, h₂, h₃⟩ := inTurn_cons.mp h
    obtain ⟨h₄, h₅⟩ := ih h₃
    exact ⟨inTurn_cons.mpr ⟨h₁, h₂, h₄⟩, h₅⟩

theorem InTurn.le {a b : Nat} {ss : List Span} (h : InTurn a ss b) : a ≤ b := by
  induction ss generalizing a with
  | nil => exact inTurn_nil.mp h
  | cons s ss ih =>
    obtain ⟨h₁, h₂, h₃⟩ := inTurn_cons.mp h
    exact Nat.le_trans h₁ (Nat.le_trans h₂ (ih h₃))

theorem InTurn.mono {a a' b b' : Nat} {ss : List Span} (ha : a' ≤ a) (hb : b ≤ b')
    (h : InTurn a ss b) : InTurn a' ss b' := by
  have h' : InTurn a' [] a := inTurn_nil.mpr ha
  have h'' : InTurn b [] b' := inTurn_nil.mpr hb
  simpa using (h'.append h).append h''

/-- Each span of a row in turn lies between its ends. -/
theorem InTurn.mem {a b : Nat} {ss : List Span} (h : InTurn a ss b) :
    ∀ s ∈ ss, s.start ≤ s.stop ∧ a ≤ s.start ∧ s.stop ≤ b := by
  intro s hs
  obtain ⟨ss₁, ss₂, rfl⟩ := List.append_of_mem hs
  obtain ⟨h₁, h₂⟩ := h.split
  obtain ⟨-, h₃, h₄⟩ := inTurn_cons.mp h₂
  exact ⟨h₃, h₁.le, h₄.le⟩

/-- The spans of a row in turn each end before the next begins. -/
theorem InTurn.isChain {a b : Nat} {ss : List Span} (h : InTurn a ss b) :
    ss.IsChain fun p q => p.stop ≤ q.start := by
  induction ss generalizing a with
  | nil => exact .nil
  | cons s ss ih =>
    obtain ⟨-, -, h₃⟩ := inTurn_cons.mp h
    cases ss with
    | nil => exact .singleton _
    | cons t ss =>
      obtain ⟨h₄, -, -⟩ := inTurn_cons.mp h₃
      exact List.isChain_cons_cons.mpr ⟨h₄, ih h₃⟩

end Span

/-- A node is located once its parts lie in turn within its span, which fits the text, and the
text shows what it is. -/
theorem Expr.Located.of_inTurn {text : List UInt8} {x : Expr}
    (h : Span.InTurn x.span.start x.partSpans x.span.stop) (hfit : x.span.stop ≤ text.length)
    (hr : x.Reads text) : x.Located text :=
  ⟨⟨h.le, hfit⟩, fun p hp => h.mem p hp, h.isChain, hr⟩

/-- Two tight spans, one before the other, make a tight span from the start of the first to the
end of the second. -/
theorem Span.Tight.join {text : List UInt8} {s t : Span} (hs : s.Tight text) (ht : t.Tight text)
    (h : s.stop ≤ t.start) : (s.join t).Tight text :=
  ⟨by have := hs.1; have := ht.1; simp only [Span.join]; omega, hs.2.1, ht.2.2⟩

/-! ### Assembly joins neighbours -/

namespace Expr

/-- Whether every binary node along the spine spans from its left operand to its right one, as
`join` builds it. -/
def Joined : Expr → Prop
  | binary l _ r s => s = l.span.join r.span ∧ l.Joined ∧ r.Joined
  | _ => True

theorem joined_of_isBinary {e : Expr} (h : e.isBinary = false) : e.Joined := by
  cases e <;> simp_all [isBinary, Joined]

theorem joined_join {l r : Expr} (op : Spanned BinaryOp) (hl : l.Joined) (hr : r.Joined) :
    (join l op r).Joined :=
  ⟨rfl, hl, hr⟩

end Expr

namespace Chain

/-- The spans along a chain: its first operand, then each operator and the operand after it. -/
def spans (c : Chain) : List Span :=
  c.first.span :: c.links.flatMap fun l => [l.op.span, l.operand.span]

/-- The last operand of a chain. -/
def last (c : Chain) : Expr := (c.links.getLast?.map (·.operand)).getD c.first

theorem spans_append (c : Chain) (op : Spanned BinaryOp) (d : Chain) :
    (c.append op d).spans = c.spans ++ op.span :: d.spans := by
  simp [spans, append]

theorem last_append (c : Chain) (op : Spanned BinaryOp) (d : Chain) :
    (c.append op d).last = d.last := by
  cases h : d.links.getLast? with
  | none =>
    have : d.links = [] := List.getLast?_eq_none_iff.mp h
    simp [last, append, this]
  | some l => simp [last, append, h, List.getLast?_append, List.getLast?_cons]

/-- A chain laid in turn starts with its first operand and ends with its last one. -/
theorem last_cons (x : Expr) (l : Link) (ls : List Link) :
    (Chain.mk x (l :: ls)).last = (Chain.mk l.operand ls).last := by
  cases ls with
  | nil => rfl
  | cons l' ls =>
    simp only [last, List.getLast?_cons_cons, List.getLast?_eq_some_getLast (List.cons_ne_nil l' ls),
      Option.map_some, Option.getD_some]

theorem ends_of_inTurn {a b : Nat} {c : Chain} (h : Span.InTurn a c.spans b) :
    a ≤ c.first.span.start ∧ c.first.span.start ≤ c.last.span.stop ∧ c.last.span.stop ≤ b := by
  obtain ⟨first, links⟩ := c
  induction links using List.reverseRecOn generalizing b with
  | nil =>
    obtain ⟨h₁, h₂, h₃⟩ := Span.inTurn_cons.mp h
    exact ⟨h₁, h₂, Span.inTurn_nil.mp h₃⟩
  | append_singleton ls l ih =>
    have hs : spans ⟨first, ls ++ [l]⟩ = spans ⟨first, ls⟩ ++ [l.op.span, l.operand.span] := by
      simp [spans]
    rw [hs] at h
    obtain ⟨h₁, h₂⟩ := h.split
    obtain ⟨h₃, h₄, h₅⟩ := ih h₁
    obtain ⟨-, h₆, h₇⟩ := Span.inTurn_cons.mp h₂
    obtain ⟨h₈, h₉, h₁₀⟩ := Span.inTurn_cons.mp h₇
    have hl : last ⟨first, ls ++ [l]⟩ = l.operand := by simp [last]
    rw [hl]
    dsimp only at h₃ h₄ ⊢
    exact ⟨h₃, by omega, Span.inTurn_nil.mp h₁₀⟩

end Chain

/-- A tree whose binary nodes are joins spans its spine from the first operand to the last. -/
theorem Expr.span_of_joined : ∀ {e : Expr}, e.Joined →
    e.span = ⟨e.spine.first.span.start, e.spine.last.span.stop⟩
  | .binary l op r s, ⟨hs, hl, hr⟩ => by
    have hl' : l.span.start = l.spine.first.span.start := by rw [span_of_joined hl]
    have hr' : r.span.stop = r.spine.last.span.stop := by rw [span_of_joined hr]
    subst hs
    show (⟨l.span.start, r.span.stop⟩ : Span) =
      ⟨(l.spine.append op r.spine).first.span.start, (l.spine.append op r.spine).last.span.stop⟩
    rw [Chain.last_append, hl', hr']
    rfl
  | .unary .., _ | .group .., _ | .array .., _ | .call .., _ | .num .., _ | .var .., _ => rfl

namespace Stack

/-- A stack whose trees are all joins. -/
def Joined (s : Stack) : Prop := s.top.Joined ∧ ∀ p ∈ s.below, p.left.Joined

theorem settle_joined {prec : Nat} : ∀ {top : Expr} {h : Nat} {ps : List Pending} {s : Stack},
    Joined ⟨top, h, ps⟩ → settle prec top h ps = .ok s → s.Joined
  | _, _, [], _, hw, hs => by rw [settle_nil_eq_ok.mp hs]; exact hw
  | _, _, p :: ps, _, hw, hs => by
    rcases settle_cons_eq_ok.mp hs with ⟨-, t, h', hj, hs⟩ | ⟨-, rfl⟩
    · obtain ⟨-, rfl, -⟩ := joinPending_eq_ok.mp hj
      exact settle_joined ⟨Expr.joined_join _ (hw.2 p (.head _)) hw.1,
        fun q hq => hw.2 q (.tail _ hq)⟩ hs
    · exact hw

theorem feed_joined : ∀ {s : Stack} {ls : List Link} {e : Expr},
    (∀ l ∈ ls, l.operand.Joined) → s.Joined → s.feed ls = .ok e → e.Joined
  | s, [], _, _, hw, h => by
    obtain ⟨s', hs, rfl⟩ := feed_nil_eq_ok.mp h
    exact (settle_joined hw hs).1
  | s, l :: ls, _, hl, hw, h => by
    obtain ⟨s', hs, hf⟩ := feed_cons_eq_ok.mp h
    have hw' := settle_joined hw hs
    refine feed_joined (fun l' hl' => hl l' (.tail _ hl')) ⟨hl l (.head _), ?_⟩ hf
    rintro p (_ | ⟨_, hp⟩)
    · exact hw'.1
    · exact hw'.2 p hp

end Stack

/-- The nodes of a tree whose binary nodes join a spine laid in turn: those of the operands are
as the operands leave them, and each binary node has its operator between its two sides. -/
theorem Expr.lays_of_spine {text : List UInt8} {tight : Prop} :
    ∀ {e : Expr} {a b : Nat}, e.Joined → Span.InTurn a e.spine.spans b → b ≤ text.length →
      (∀ l ∈ e.spine.links, l.op.span.slice text = l.op.val.spelling.toUTF8.data.toList) →
      (∀ y ∈ e.spine.operands, ∀ x ∈ y.nodes, x.Located text ∧ (tight → x.span.Tight text)) →
      ∀ x ∈ e.nodes, x.Located text ∧ (tight → x.span.Tight text)
  | .binary l op r s, a, b, ⟨hs, hl, hr⟩, hturn, hb, hops, hnodes => by
    rw [spine, Chain.spans_append] at hturn
    obtain ⟨hturnl, hturnr⟩ := hturn.split
    obtain ⟨-, hop, hturnr⟩ := Span.inTurn_cons.mp hturnr
    have hle := Chain.ends_of_inTurn hturnl
    have hre := Chain.ends_of_inTurn hturnr
    -- the operators and operands of each side are among those of the whole spine
    have hlinks : (binary l op r s).spine.links = l.spine.links ++ ⟨op, r.spine.first⟩ :: r.spine.links := rfl
    have hoperands : (binary l op r s).spine.operands = l.spine.operands ++ r.spine.operands :=
      Chain.operands_append _ _ _
    have ihl := lays_of_spine hl hturnl (by omega)
      (fun l' hl' => hops l' (by rw [hlinks]; exact List.mem_append_left _ hl'))
      (fun y hy => hnodes y (by rw [hoperands]; exact List.mem_append_left _ hy))
    have ihr := lays_of_spine hr hturnr hb
      (fun l' hl' => hops l' (by rw [hlinks]; exact List.mem_append_right _ (List.mem_cons_of_mem _ hl')))
      (fun y hy => hnodes y (by rw [hoperands]; exact List.mem_append_right _ hy))
    have hls := span_of_joined hl
    have hrs := span_of_joined hr
    intro x hx
    rcases List.mem_cons.mp hx with rfl | hx
    · -- the node itself lays its left side, its operator and its right side in turn
      have hturn' : Span.InTurn (binary l op r s).span.start (binary l op r s).partSpans
          (binary l op r s).span.stop := by
        simp only [span_binary, partSpans, hs, Span.join, Span.inTurn_cons, Span.inTurn_nil]
        rw [hls, hrs]
        dsimp only
        omega
      refine ⟨Located.of_inTurn hturn' ?_ ⟨hops ⟨op, r.spine.first⟩ (by rw [hlinks]; simp), hs⟩,
        fun ht => ?_⟩
      · simp only [span_binary, hs, Span.join]
        rw [hrs]
        dsimp only
        omega
      · have hjoin := ((ihl l (mem_nodes_self l)).2 ht).join ((ihr r (mem_nodes_self r)).2 ht)
          (by rw [hls, hrs]; dsimp only; omega)
        simpa only [span_binary, hs] using hjoin
    · rcases List.mem_append.mp hx with hx | hx
      · exact ihl x hx
      · exact ihr x hx
  | .unary .., _, _, _, _, _, _, hnodes | .group .., _, _, _, _, _, _, hnodes
  | .array .., _, _, _, _, _, _, hnodes | .call .., _, _, _, _, _, _, hnodes
  | .num .., _, _, _, _, _, _, hnodes | .var .., _, _, _, _, _, _, hnodes =>
    hnodes _ List.mem_cons_self

/-- Assembly builds every binary node by `join`. -/
theorem Chain.assemble_joined {c : Chain} {e : Expr} (hc : ∀ x ∈ c.operands, x.Joined)
    (h : c.assemble = .ok e) : e.Joined :=
  Stack.feed_joined (fun l hl => hc _ (List.mem_cons_of_mem _ (List.mem_map_of_mem hl)))
    ⟨hc _ List.mem_cons_self, by simp [Stack.single]⟩ h

/-! ### Tight parts -/

/-- A span that fits the text and covers a non-empty run with no blank in it is tight. -/
theorem Span.tight_of_slice {text w : List UInt8} {s : Span} (hst : s.stop ≤ text.length)
    (h : s.slice text = w) (hw : w ≠ []) (hb : ∀ b ∈ w, Ascii.isBlank b = false) : s.Tight text := by
  rw [Span.slice, List.extract_eq_take_drop] at h
  subst h
  have hlen : ((text.drop s.start).take (s.stop - s.start)).length = s.stop - s.start := by
    simp only [List.length_take, List.length_drop]
    omega
  -- the `j`-th byte of the run is the byte at `s.start + j`
  have hat : ∀ j (hj : j < ((text.drop s.start).take (s.stop - s.start)).length),
      text.getD (s.start + j) 0 = ((text.drop s.start).take (s.stop - s.start))[j] := by
    intro j hj
    rw [List.getD_eq_getElem?_getD, ← List.getElem?_drop,
      ← List.getElem?_take_of_lt (hlen ▸ hj : j < s.stop - s.start), List.getElem?_eq_getElem hj]
    rfl
  have hpos := List.length_pos_iff.mpr hw
  refine ⟨by omega, ?_, ?_⟩
  · rw [← Nat.add_zero s.start, hat 0 hpos]
    exact hb _ (List.getElem_mem _)
  · rw [show s.stop - 1 = s.start + (s.stop - s.start - 1) by omega, hat _ (by omega)]
    exact hb _ (List.getElem_mem _)

theorem BinaryOp.spelling_solid (op : BinaryOp) : op.spelling.toUTF8.data.toList ≠ [] ∧
    ∀ b ∈ op.spelling.toUTF8.data.toList, Ascii.isBlank b = false := by
  rw [String.toUTF8_eq_toByteArray, BinaryOp.spelling_bytes]
  cases op <;> simp [Ascii.isBlank]

theorem UnaryOp.spelling_solid (op : UnaryOp) : op.spelling.toUTF8.data.toList ≠ [] ∧
    ∀ b ∈ op.spelling.toUTF8.data.toList, Ascii.isBlank b = false := by
  rw [String.toUTF8_eq_toByteArray, UnaryOp.spelling_bytes]
  cases op <;> simp [Ascii.isBlank]

theorem Ascii.isName_solid {n : String} (h : isName n = true) : n.toUTF8.data.toList ≠ [] ∧
    ∀ b ∈ n.toUTF8.data.toList, isBlank b = false := by
  unfold isName at h
  split at h
  · next b bs hn =>
    simp only [Bool.and_eq_true, List.all_eq_true] at h
    rw [hn]
    refine ⟨List.cons_ne_nil _ _, ?_⟩
    rintro x (_ | ⟨_, hx⟩)
    · exact isBlank_of_isNameByte (isNameByte_of_isLetter h.1)
    · exact isBlank_of_isNameByte (h.2 x hx)
  · cases h

/-- The parts of a located node are tight when its subtrees are: an operator and a name are spelt
without blanks. -/
theorem Expr.Located.parts_tight {text : List UInt8} {x : Expr} (hx : x.Located text)
    (hc : ∀ c ∈ x.children, c.span.Tight text) : ∀ s ∈ x.partSpans, s.Tight text := by
  intro s hs
  have hfit := (hx.inside s hs).2.2.trans hx.fits.2
  have hreads := hx.reads
  cases x with
  | unary op a y sp =>
    have hop := op.val.spelling_solid
    have hy := hc y List.mem_cons_self
    rw [Expr.Reads] at hreads
    cases a <;> simp only [Expr.partSpans, List.mem_cons, List.not_mem_nil, or_false] at hs <;>
      obtain rfl | rfl := hs
    · exact Span.tight_of_slice hfit hreads hop.1 hop.2
    · exact hy
    · exact hy
    · exact Span.tight_of_slice hfit hreads hop.1 hop.2
  | binary l op r sp =>
    have hop := op.val.spelling_solid
    rw [Expr.Reads] at hreads
    simp only [Expr.partSpans, List.mem_cons, List.not_mem_nil, or_false] at hs
    obtain rfl | rfl | rfl := hs
    · exact hc l List.mem_cons_self
    · exact Span.tight_of_slice hfit hreads.1 hop.1 hop.2
    · exact hc r (List.mem_cons_of_mem _ List.mem_cons_self)
  | group y sp =>
    obtain rfl := List.mem_singleton.mp hs
    exact hc y List.mem_cons_self
  | array es sp =>
    obtain ⟨y, hy, rfl⟩ := List.mem_map.mp hs
    exact hc y hy
  | call name as sp =>
    rw [Expr.Reads] at hreads
    rcases List.mem_cons.mp hs with rfl | hs
    · have hname := Ascii.isName_solid hreads.2
      exact Span.tight_of_slice hfit hreads.1 hname.1 hname.2
    · obtain ⟨y, hy, rfl⟩ := List.mem_map.mp hs
      exact hc y hy
  | num _ _ => cases hs
  | var _ _ => cases hs

end Formula
