import Mathlib
import Formula.Parse.Chain

/-! How a chain becomes a tree that spells out the chain (`spine_assemble`) within `treeLimit`
(`height_assemble_le`); the work-list walk finds the recursive height (`scanHeight_eq_height`). -/

namespace Formula

namespace Expr

theorem height_eq_children (e : Expr) : e.height = heightList e.children + 1 := by
  cases e <;> simp [height, heightList, children]

theorem size_eq_children (e : Expr) : e.size = sizeList e.children + 1 := by
  cases e <;> simp [size, sizeList, children]

theorem sizeList_append (es es' : List Expr) : sizeList (es ++ es') = sizeList es + sizeList es' := by
  induction es with
  | nil => simp [sizeList]
  | cons e es ih => simp [sizeList, ih]; omega

/-- The deepest level that the nodes of a work list reach below them. -/
def reach : List (Expr × Nat) → Nat
  | [] => 0
  | (x, level) :: rest => max (level + heightList x.children) (reach rest)

theorem reach_append (w w' : List (Expr × Nat)) : reach (w ++ w') = max (reach w) (reach w') := by
  induction w with
  | nil => simp [reach]
  | cons xl w ih => simp [reach, ih, Nat.max_assoc]

/-- The children of a node at `level` reach as deep as the node itself. -/
theorem max_reach_children (level : Nat) (cs : List Expr) :
    max level (reach (cs.map (·, level + 1))) = level + heightList cs := by
  induction cs with
  | nil => simp [reach, heightList]
  | cons c cs ih =>
    have hc := height_eq_children c
    simp only [List.map_cons, reach, heightList]
    omega

/-- Given as many steps as the work list has nodes, the walk ends at the deepest level. -/
theorem scanHeight_go : ∀ (n : Nat) (work : List (Expr × Nat)) (best : Nat),
    sizeList (work.map Prod.fst) ≤ n → scanHeight.go n work best = max best (reach work)
  | 0, [], _, _ | _ + 1, [], _, _ => by simp [scanHeight.go, reach]
  | 0, (x, _) :: _, _, h => by
    have := size_eq_children x
    simp only [List.map_cons, sizeList] at h
    omega
  | n + 1, (x, level) :: rest, best, h => by
    have hs := size_eq_children x
    simp only [List.map_cons, sizeList] at h
    rw [scanHeight.go, scanHeight_go n _ _ (by simp [sizeList_append, Function.comp_def]; omega),
      reach_append, reach, ← max_reach_children level x.children]
    omega

theorem scanHeight_eq_height (e : Expr) : e.scanHeight = e.height := by
  rw [scanHeight, scanHeight_go _ _ _ (by simp [sizeList]), height_eq_children]
  simp [reach, Nat.add_comm]

theorem heightList_eq_foldr (es : List Expr) : heightList es = (es.map height).foldr max 0 := by
  induction es with
  | nil => rfl
  | cons e es ih => simp [heightList, ih]

theorem size_lt_of_mem_children {e c : Expr} (hc : c ∈ e.children) : c.size < e.size := by
  have hle : ∀ {es : List Expr}, c ∈ es → c.size ≤ sizeList es := by
    intro es hes
    induction es with
    | nil => simp at hes
    | cons x es ih =>
      rcases List.mem_cons.mp hes with rfl | hes
      · simp [sizeList]
      · have := ih hes
        simp only [sizeList]
        omega
  have := hle hc
  rw [size_eq_children e]
  omega

/-- The recursive height equations have one solution: they fix a node's height from its
children's, so by induction on the size it agrees with `height` everywhere. -/
theorem eq_height_of_recursion {h : Expr → Nat}
    (hrec : ∀ t, h t = (t.children.map h).foldr max 0 + 1) (t : Expr) : h t = t.height := by
  rw [hrec, height_eq_children, heightList_eq_foldr]
  congr 2
  exact List.map_congr_left fun c hc => eq_height_of_recursion hrec c
termination_by t.size
decreasing_by exact size_lt_of_mem_children hc

/-- The work-list walk finds the height that recursion over the subtrees defines, one more than
the tallest subtree and `1` for a node without any: a function gives the walk's answer on every
tree exactly when it obeys these equations. -/
theorem scanHeight_eq_iff_recursive (h : Expr → Nat) :
    (∀ t, t.scanHeight = h t) ↔ ∀ t, h t = (t.children.map h).foldr max 0 + 1 := by
  constructor
  · intro hscan t
    have hh : h = height := funext fun t => (hscan t).symm.trans (scanHeight_eq_height t)
    subst hh
    rw [height_eq_children, heightList_eq_foldr]
  · intro hrec t
    rw [scanHeight_eq_height, eq_height_of_recursion hrec]

mutual

theorem height_eq_of_sameShape : ∀ {e e' : Expr}, sameShape e e' = true → e.height = e'.height
  | unary _ _ x _, e', h => by
    cases e' <;> simp only [sameShape, Bool.and_eq_true, Bool.false_eq_true] at h
    simp [height, height_eq_of_sameShape h.2]
  | binary l _ r _, e', h => by
    cases e' <;> simp only [sameShape, Bool.and_eq_true, Bool.false_eq_true] at h
    simp [height, height_eq_of_sameShape h.1.2, height_eq_of_sameShape h.2]
  | group x _, e', h => by
    cases e' <;> simp only [sameShape, Bool.false_eq_true] at h
    simp [height, height_eq_of_sameShape h]
  | array es _, e', h => by
    cases e' <;> simp only [sameShape, Bool.false_eq_true] at h
    simp [height, heightList_eq_of_sameShapeList h]
  | call _ as _, e', h => by
    cases e' <;> simp only [sameShape, Bool.and_eq_true, Bool.false_eq_true] at h
    simp [height, heightList_eq_of_sameShapeList h.2]
  | num .., e', h | var .., e', h => by cases e' <;> simp_all [sameShape, height]

theorem heightList_eq_of_sameShapeList : ∀ {es es' : List Expr}, sameShapeList es es' = true →
    heightList es = heightList es'
  | [], es', h => by cases es' <;> simp_all [sameShapeList]
  | e :: es, es', h => by
    cases es' <;> simp only [sameShapeList, Bool.and_eq_true, Bool.false_eq_true] at h
    simp [heightList, height_eq_of_sameShape h.1, heightList_eq_of_sameShapeList h.2]

end

theorem height_join (l : Expr) (op : Spanned BinaryOp) (r : Expr) :
    (join l op r).height = max l.height r.height + 1 := rfl

theorem sameShape_join {l l' r r' : Expr} {op op' : Spanned BinaryOp} (ho : op.val = op'.val)
    (hl : sameShape l l' = true) (hr : sameShape r r' = true) :
    sameShape (join l op r) (join l' op' r') = true := by
  simp [join, sameShape, ho, hl, hr]

/-- Whether the tree is a binary node. -/
def isBinary : Expr → Bool
  | binary .. => true
  | _ => false

end Expr

namespace Chain

/-- The chain `c`, then the operator `op`, then the chain `d`. -/
def append (c : Chain) (op : Spanned BinaryOp) (d : Chain) : Chain :=
  ⟨c.first, c.links ++ ⟨op, d.first⟩ :: d.links⟩

/-- The chain with more links after its own. -/
def extend (c : Chain) (ls : List Link) : Chain := ⟨c.first, c.links ++ ls⟩

/-- The operands of a chain, left to right. -/
def operands (c : Chain) : List Expr := c.first :: c.links.map (·.operand)

theorem append_extend (c : Chain) (op : Spanned BinaryOp) (d : Chain) (ls : List Link) :
    c.append op (d.extend ls) = (c.append op d).extend ls := by
  simp [append, extend]

theorem extend_extend (c : Chain) (ls ls' : List Link) :
    (c.extend ls).extend ls' = c.extend (ls ++ ls') := by
  simp [extend]

end Chain

/-- The chain a tree spells out: its binary nodes opened up, left to right. -/
def Expr.spine : Expr → Chain
  | .binary l op r _ => l.spine.append op r.spine
  | e => ⟨e, []⟩

theorem Expr.spine_of_isBinary {e : Expr} (h : e.isBinary = false) : e.spine = ⟨e, []⟩ := by
  cases e <;> simp_all [isBinary, spine]

theorem Expr.spine_join (l : Expr) (op : Spanned BinaryOp) (r : Expr) :
    (join l op r).spine = l.spine.append op r.spine := rfl

namespace Stack

/-- The chain that pending operands spell out in front of the chain `c` of the top. -/
def pendingSpine : List Pending → Chain → Chain
  | [], c => c
  | p :: ps, c => pendingSpine ps (p.left.spine.append p.op c)

/-- The chain a stack stands for. -/
def spine (s : Stack) : Chain := pendingSpine s.below s.top.spine

theorem pendingSpine_extend : ∀ (ps : List Pending) (c : Chain) (ls : List Link),
    pendingSpine ps (c.extend ls) = (pendingSpine ps c).extend ls
  | [], _, _ => rfl
  | p :: ps, c, ls => by simp only [pendingSpine, Chain.append_extend, pendingSpine_extend ps]

theorem joinPending_eq_ok {p : Pending} {top : Expr} {h : Nat} {t : Expr} {h' : Nat} :
    joinPending p top h = .ok (t, h') ↔ max p.height h + 1 ≤ treeLimit ∧
      t = Expr.join p.left p.op top ∧ h' = max p.height h + 1 := by
  unfold joinPending
  split
  · simp only [reduceCtorEq, false_iff, not_and]
    omega
  · simp only [Except.ok.injEq, Prod.mk.injEq]
    constructor
    · rintro ⟨rfl, rfl⟩
      exact ⟨by omega, rfl, rfl⟩
    · rintro ⟨-, rfl, rfl⟩
      exact ⟨rfl, rfl⟩

theorem settle_nil_eq_ok {prec : Nat} {top : Expr} {h : Nat} {s : Stack} :
    settle prec top h [] = .ok s ↔ s = ⟨top, h, []⟩ := by
  simp [settle, eq_comm]

/-- One step of settling: join the nearest pending operand, or stop before a looser one. -/
theorem settle_cons_eq_ok {prec : Nat} {top : Expr} {h : Nat} {p : Pending} {ps : List Pending}
    {s : Stack} : settle prec top h (p :: ps) = .ok s ↔
      (prec ≤ p.op.val.precedence ∧ ∃ t h', joinPending p top h = .ok (t, h') ∧
        settle prec t h' ps = .ok s) ∨
      (p.op.val.precedence < prec ∧ s = ⟨top, h, p :: ps⟩) := by
  rw [settle]
  by_cases hp : prec ≤ p.op.val.precedence
  · have hn : ¬ p.op.val.precedence < prec := by omega
    simp only [hp, if_true, true_and, hn, false_and, or_false]
    cases hj : joinPending p top h with
    | ok th =>
      obtain ⟨t, h'⟩ := th
      simp
    | error op => simp
  · have hn : p.op.val.precedence < prec := by omega
    simp only [hp, if_false, false_and, hn, true_and, false_or, Except.ok.injEq]
    exact eq_comm

theorem feed_nil_eq_ok {s : Stack} {e : Expr} :
    s.feed [] = .ok e ↔ ∃ s', settle 0 s.top s.height s.below = .ok s' ∧ e = s'.top := by
  rw [feed]
  cases settle 0 s.top s.height s.below <;>
    simp [Functor.map, Except.map, eq_comm]

theorem feed_cons_eq_ok {s : Stack} {l : Link} {ls : List Link} {e : Expr} :
    s.feed (l :: ls) = .ok e ↔ ∃ s', settle l.op.val.precedence s.top s.height s.below = .ok s' ∧
      (s'.push l).feed ls = .ok e := by
  rw [feed]
  cases settle l.op.val.precedence s.top s.height s.below <;> simp

theorem settle_spine {prec : Nat} : ∀ {top : Expr} {h : Nat} {ps : List Pending} {s : Stack},
    settle prec top h ps = .ok s → s.spine = pendingSpine ps top.spine
  | _, _, [], _, hs => by rw [settle_nil_eq_ok.mp hs]; rfl
  | _, _, p :: ps, _, hs => by
    rcases settle_cons_eq_ok.mp hs with ⟨-, t, h', hj, hs⟩ | ⟨-, rfl⟩
    · obtain ⟨-, rfl, -⟩ := joinPending_eq_ok.mp hj
      rw [settle_spine hs]
      rfl
    · rfl

/-- Settling at the weakest binding joins everything. -/
theorem settle_zero_below : ∀ {top : Expr} {h : Nat} {ps : List Pending} {s : Stack},
    settle 0 top h ps = .ok s → s.below = []
  | _, _, [], _, hs => by rw [settle_nil_eq_ok.mp hs]
  | _, _, p :: ps, _, hs => by
    rcases settle_cons_eq_ok.mp hs with ⟨-, _, _, -, hs⟩ | ⟨hp, -⟩
    · exact settle_zero_below hs
    · omega

theorem push_spine (s : Stack) {l : Link} (hl : l.operand.isBinary = false) :
    (s.push l).spine = s.spine.extend [l] := by
  obtain ⟨op, x⟩ := l
  simp only [push, spine, pendingSpine, Expr.spine_of_isBinary hl]
  rw [← pendingSpine_extend]
  rfl

theorem feed_spine : ∀ {s : Stack} {ls : List Link} {e : Expr},
    (∀ l ∈ ls, l.operand.isBinary = false) → s.feed ls = .ok e → e.spine = s.spine.extend ls
  | s, [], _, _, h => by
    obtain ⟨s', hs, rfl⟩ := feed_nil_eq_ok.mp h
    have hsp := settle_spine hs
    rw [spine, settle_zero_below hs] at hsp
    simp [Chain.extend, spine, ← hsp, pendingSpine]
  | s, l :: ls, _, hb, h => by
    obtain ⟨s', hs, hf⟩ := feed_cons_eq_ok.mp h
    rw [feed_spine (fun l' hl' => hb l' (.tail _ hl')) hf, push_spine _ (hb l (.head _)),
      settle_spine hs, Chain.extend_extend]
    rfl

end Stack

/-- A chain of operands that are not binary nodes is spelt out again by the tree it
assembles to. -/
theorem Chain.spine_assemble {c : Chain} {e : Expr} (hc : ∀ x ∈ c.operands, x.isBinary = false)
    (h : c.assemble = .ok e) : e.spine = c := by
  have hf : c.first.isBinary = false := hc _ List.mem_cons_self
  rw [Stack.feed_spine (fun l hl => hc _ (List.mem_cons_of_mem _ (List.mem_map_of_mem hl))) h]
  simp [Stack.single, Stack.spine, Stack.pendingSpine, Expr.spine_of_isBinary hf, Chain.extend]

namespace Stack

/-- The heights a stack keeps are those of its trees. -/
def Sound (s : Stack) : Prop := s.height = s.top.height ∧ ∀ p ∈ s.below, p.height = p.left.height

theorem single_sound (e : Expr) : (single e).Sound :=
  ⟨Expr.scanHeight_eq_height e, by simp [single]⟩

theorem push_sound {s : Stack} (hs : s.Sound) (l : Link) : (s.push l).Sound := by
  refine ⟨Expr.scanHeight_eq_height l.operand, ?_⟩
  rintro p (_ | ⟨_, hp⟩)
  · exact hs.1
  · exact hs.2 p hp

theorem settle_sound {prec : Nat} : ∀ {top : Expr} {h : Nat} {ps : List Pending} {s : Stack},
    Sound ⟨top, h, ps⟩ → settle prec top h ps = .ok s → s.Sound
  | _, _, [], _, hw, hs => by rw [settle_nil_eq_ok.mp hs]; exact hw
  | top, h, p :: ps, _, hw, hs => by
    rcases settle_cons_eq_ok.mp hs with ⟨-, t, h', hj, hs⟩ | ⟨-, rfl⟩
    · obtain ⟨-, rfl, rfl⟩ := joinPending_eq_ok.mp hj
      have htop : h = top.height := hw.1
      refine settle_sound ⟨?_, fun q hq => hw.2 q (.tail _ hq)⟩ hs
      simp [Expr.height_join, htop, hw.2 p (.head _)]
    · exact hw

/-- Settling never raises a height above `treeLimit`: each join is checked against it. -/
theorem settle_height_le {prec : Nat} : ∀ {top : Expr} {h : Nat} {ps : List Pending} {s : Stack},
    h ≤ treeLimit → settle prec top h ps = .ok s → s.height ≤ treeLimit
  | _, _, [], _, hh, hs => by rw [settle_nil_eq_ok.mp hs]; exact hh
  | _, _, p :: ps, _, hh, hs => by
    rcases settle_cons_eq_ok.mp hs with ⟨-, t, h', hj, hs⟩ | ⟨-, rfl⟩
    · obtain ⟨hle, -, rfl⟩ := joinPending_eq_ok.mp hj
      exact settle_height_le hle hs
    · exact hh

/-- Once an operand is pending, what the stack gives is a join, checked against `treeLimit`. -/
theorem feed_height_le {s : Stack} {ls : List Link} {e : Expr} (hw : s.Sound) (hb : s.below ≠ [])
    (hf : s.feed ls = .ok e) : e.height ≤ treeLimit := by
  induction ls generalizing s with
  | nil =>
    obtain ⟨top, h, _ | ⟨p, ps⟩⟩ := s
    · exact absurd rfl hb
    obtain ⟨s', hs, rfl⟩ := feed_nil_eq_ok.mp hf
    rw [← (settle_sound hw hs).1]
    rcases settle_cons_eq_ok.mp hs with ⟨-, t, h', hj, hs⟩ | ⟨hp, -⟩
    · obtain ⟨hle, -, rfl⟩ := joinPending_eq_ok.mp hj
      exact settle_height_le hle hs
    · omega
  | cons l ls ih =>
    obtain ⟨s', hs, hf⟩ := feed_cons_eq_ok.mp hf
    exact ih (push_sound (settle_sound hw hs) l) (by simp [push]) hf

end Stack

/-- A chain of one operand is that operand. -/
theorem Chain.assemble_nil (x : Expr) : (⟨x, []⟩ : Chain).assemble = .ok x := rfl

/-- A chain with an operator assembles to a tree no taller than `treeLimit`. -/
theorem Chain.height_assemble_le {c : Chain} {e : Expr} (hl : c.links ≠ [])
    (h : c.assemble = .ok e) : e.height ≤ treeLimit := by
  obtain ⟨x, _ | ⟨l, ls⟩⟩ := c
  · exact absurd rfl hl
  · obtain ⟨s', hs, hf⟩ := Stack.feed_cons_eq_ok.mp h
    have hw := Stack.settle_sound (Stack.single_sound x) hs
    exact Stack.feed_height_le (Stack.push_sound hw l) (by simp [Stack.push]) hf

/-- Two links alike: the same operator before operands of the same shape. -/
def Link.Alike (l l' : Link) : Prop := l.op.val = l'.op.val ∧ l.operand.sameShape l'.operand = true

/-- Two pending operands alike: trees of the same shape and height under the same operator. -/
def Pending.Alike (p p' : Pending) : Prop :=
  p.left.sameShape p'.left = true ∧ p.height = p'.height ∧ p.op.val = p'.op.val

namespace Stack

/-- Two stacks alike: their trees have the same shapes and heights, their operators agree. -/
def Alike (s s' : Stack) : Prop :=
  s.top.sameShape s'.top = true ∧ s.height = s'.height ∧ List.Forall₂ Pending.Alike s.below s'.below

theorem push_alike {s s' : Stack} {l l' : Link} (hs : s.Alike s') (hl : l.Alike l') :
    (s.push l).Alike (s'.push l') := by
  refine ⟨hl.2, ?_, .cons ⟨hs.1, hs.2.1, hl.1⟩ hs.2.2⟩
  simp only [push, Expr.scanHeight_eq_height]
  exact Expr.height_eq_of_sameShape hl.2

/-- Settling decides on heights and operators alone, so alike stacks settle alike. -/
theorem settle_alike {prec : Nat} {ps ps' : List Pending}
    (hp : List.Forall₂ Pending.Alike ps ps') : ∀ {top top' : Expr} {h : Nat} {s : Stack},
      top.sameShape top' = true → settle prec top h ps = .ok s →
      ∃ s', settle prec top' h ps' = .ok s' ∧ s.Alike s' := by
  induction hp with
  | nil =>
    intro top top' h s ht hs
    rw [settle_nil_eq_ok.mp hs]
    exact ⟨_, rfl, ht, rfl, .nil⟩
  | @cons p p' ps ps' hpp _ ih =>
    intro top top' h s ht hs
    obtain ⟨hl, hh, ho⟩ := hpp
    rcases settle_cons_eq_ok.mp hs with ⟨hprec, t, h', hj, hs⟩ | ⟨hprec, rfl⟩
    · obtain ⟨hle, rfl, rfl⟩ := joinPending_eq_ok.mp hj
      obtain ⟨s', hs', hss⟩ := ih (Expr.sameShape_join ho hl ht) hs
      refine ⟨s', settle_cons_eq_ok.mpr (.inl ⟨ho ▸ hprec, _, _, ?_, hh ▸ hs'⟩), hss⟩
      exact joinPending_eq_ok.mpr ⟨hh ▸ hle, rfl, rfl⟩
    · exact ⟨_, settle_cons_eq_ok.mpr (.inr ⟨ho ▸ hprec, rfl⟩),
        ht, rfl, .cons ⟨hl, hh, ho⟩ ‹_›⟩

theorem feed_alike {ls ls' : List Link} (hl : List.Forall₂ Link.Alike ls ls') :
    ∀ {s s' : Stack} {e : Expr}, s.Alike s' → s.feed ls = .ok e →
      ∃ e', s'.feed ls' = .ok e' ∧ e.sameShape e' = true := by
  induction hl with
  | nil =>
    intro s s' e hs hf
    obtain ⟨s₁, h₁, rfl⟩ := feed_nil_eq_ok.mp hf
    obtain ⟨s₁', h₁', hss⟩ := settle_alike hs.2.2 hs.1 (hs.2.1 ▸ h₁)
    exact ⟨s₁'.top, feed_nil_eq_ok.mpr ⟨s₁', h₁', rfl⟩, hss.1⟩
  | @cons l l' ls ls' hll _ ih =>
    intro s s' e hs hf
    obtain ⟨s₁, h₁, hf⟩ := feed_cons_eq_ok.mp hf
    obtain ⟨s₁', h₁', hss⟩ := settle_alike hs.2.2 hs.1 (hs.2.1 ▸ h₁)
    obtain ⟨e', hf', he⟩ := ih (push_alike hss hll) hf
    exact ⟨e', feed_cons_eq_ok.mpr ⟨s₁', hll.1 ▸ h₁', hf'⟩, he⟩

end Stack

/-- Chains of the same shape assemble to trees of the same shape: assembly looks only at
operators and heights. -/
theorem Chain.assemble_congr {c c' : Chain} {e : Expr} (hf : c.first.sameShape c'.first = true)
    (hl : List.Forall₂ Link.Alike c.links c'.links) (h : c.assemble = .ok e) :
    ∃ e', c'.assemble = .ok e' ∧ e.sameShape e' = true := by
  refine Stack.feed_alike hl ⟨hf, ?_, .nil⟩ h
  simp only [Stack.single, Expr.scanHeight_eq_height]
  exact Expr.height_eq_of_sameShape hf

end Formula
