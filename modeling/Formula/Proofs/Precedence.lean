import Formula.Proofs.Assembly
import Formula.Proofs.Reading

/-! The tree a chain stands for, split at its last loosest operator (`Chain.reference`): assembly
builds it, or fails at its first join past `treeLimit` in post-order (`assemble_eq_reference`). -/

namespace Formula

namespace Chain

/-- Splits links at the last one whose operator binds most loosely: the links before it, that
link, and the links after it. -/
def splitLoosest : List Link → Option (List Link × Link × List Link)
  | [] => none
  | l :: ls =>
    match splitLoosest ls with
    | none => some ([], l, [])
    | some (pre, m, post) =>
      if m.op.val.precedence ≤ l.op.val.precedence then some (l :: pre, m, post)
      else some ([], l, ls)

theorem splitLoosest_eq_none {ls : List Link} : splitLoosest ls = none ↔ ls = [] := by
  cases ls with
  | nil => simp [splitLoosest]
  | cons l ls =>
    simp only [splitLoosest, reduceCtorEq, iff_false]
    split
    · simp
    · split <;> simp

/-- The split link binds at most as tightly as every link before it and more loosely than every
link after it: it is the last link of least precedence. -/
theorem splitLoosest_eq_some {ls pre post : List Link} {m : Link}
    (h : splitLoosest ls = some (pre, m, post)) : ls = pre ++ m :: post ∧
      (∀ x ∈ pre, m.op.val.precedence ≤ x.op.val.precedence) ∧
      ∀ x ∈ post, m.op.val.precedence < x.op.val.precedence := by
  induction ls generalizing pre m post with
  | nil => cases h
  | cons l ls ih =>
    simp only [splitLoosest] at h
    split at h
    · rename_i hn
      cases h
      rw [splitLoosest_eq_none.mp hn]
      simp
    · rename_i pre' m' post' hs
      obtain ⟨hls, hpre, hpost⟩ := ih hs
      split at h
      · rename_i hle
        cases h
        refine ⟨by simp [hls], ?_, hpost⟩
        intro x hx
        rcases List.mem_cons.mp hx with rfl | hx
        · exact hle
        · exact hpre x hx
      · rename_i hlt
        cases h
        refine ⟨rfl, by simp, ?_⟩
        -- every link after `l` binds at least as tightly as `m`, which binds more tightly than `l`
        intro x hx
        rw [hls] at hx
        rcases List.mem_append.mp hx with hx | hx
        · have := hpre x hx
          omega
        · rcases List.mem_cons.mp hx with rfl | hx
          · omega
          · have := hpost x hx
            omega

/-- The split is the only one with that property. -/
theorem splitLoosest_eq_some_iff {ls pre post : List Link} {m : Link} :
    splitLoosest ls = some (pre, m, post) ↔ ls = pre ++ m :: post ∧
      (∀ x ∈ pre, m.op.val.precedence ≤ x.op.val.precedence) ∧
      ∀ x ∈ post, m.op.val.precedence < x.op.val.precedence := by
  refine ⟨splitLoosest_eq_some, ?_⟩
  rintro ⟨rfl, hpre, hpost⟩
  induction pre with
  | nil =>
    simp only [List.nil_append, splitLoosest]
    cases hs : splitLoosest post with
    | none => rw [splitLoosest_eq_none.mp hs]
    | some split =>
      obtain ⟨pre', m', post'⟩ := split
      obtain ⟨hls, -, -⟩ := splitLoosest_eq_some hs
      have hm' : m.op.val.precedence < m'.op.val.precedence := hpost m' (by simp [hls])
      simp [Nat.not_le.mpr hm']
  | cons l pre ih =>
    simp only [List.cons_append, splitLoosest]
    rw [ih (fun x hx => hpre x (.tail _ hx))]
    simp [hpre l List.mem_cons_self]

theorem length_lt_of_splitLoosest {ls pre post : List Link} {m : Link}
    (h : splitLoosest ls = some (pre, m, post)) : pre.length < ls.length ∧ post.length < ls.length := by
  rw [(splitLoosest_eq_some h).1]
  simp only [List.length_append, List.length_cons]
  omega

/-- The tree a chain stands for when every level associates to the left: it joins the tree of
the links before the last loosest operator to the tree of those after it. -/
def reference (c : Chain) : Expr :=
  match h : splitLoosest c.links with
  | none => c.first
  | some (pre, l, post) =>
    have := length_lt_of_splitLoosest h
    Expr.join (reference ⟨c.first, pre⟩) l.op (reference ⟨l.operand, post⟩)
termination_by c.links.length

/-- The joins of the reference tree in post-order, each as its operator and the node it builds:
those of the left side, those of the right side, then the join at the last loosest operator. -/
def joins (c : Chain) : List (Spanned BinaryOp × Expr) :=
  match h : splitLoosest c.links with
  | none => []
  | some (pre, l, post) =>
    have := length_lt_of_splitLoosest h
    joins ⟨c.first, pre⟩ ++ joins ⟨l.operand, post⟩ ++
      [(l.op, Expr.join (reference ⟨c.first, pre⟩) l.op (reference ⟨l.operand, post⟩))]
termination_by c.links.length

theorem reference_of_nil (x : Expr) : reference ⟨x, []⟩ = x := by
  rw [reference]
  rfl

theorem joins_of_nil (x : Expr) : joins ⟨x, []⟩ = [] := by
  rw [joins]
  rfl

theorem reference_of_split {c : Chain} {pre post : List Link} {l : Link}
    (h : splitLoosest c.links = some (pre, l, post)) :
    c.reference = Expr.join (reference ⟨c.first, pre⟩) l.op (reference ⟨l.operand, post⟩) := by
  rw [reference]
  split <;> simp_all

theorem joins_of_split {c : Chain} {pre post : List Link} {l : Link}
    (h : splitLoosest c.links = some (pre, l, post)) :
    c.joins = joins ⟨c.first, pre⟩ ++ joins ⟨l.operand, post⟩ ++ [(l.op, c.reference)] := by
  rw [joins, reference_of_split h]
  split <;> simp_all

end Chain

/-- Steps that may fail regroup to the right. -/
theorem Except.bind_assoc {ε α β γ : Type} (x : Except ε α) (f : α → Except ε β)
    (g : β → Except ε γ) : (x.bind f).bind g = x.bind fun a => (f a).bind g := by
  cases x <;> rfl

theorem Except.ok_bind {ε α β : Type} (a : α) (f : α → Except ε β) :
    (Except.ok a : Except ε α).bind f = f a :=
  rfl

namespace Stack

/-- Feeds links without joining what is left at the end: each link settles the stack at its
precedence and is pushed. -/
def shift : Stack → List Link → Except (Spanned BinaryOp) Stack
  | s, [] => .ok s
  | s, l :: ls =>
    match settle l.op.val.precedence s.top s.height s.below with
    | .ok s' => shift (s'.push l) ls
    | .error op => .error op

theorem feed_eq_shift (s : Stack) (ls : List Link) :
    s.feed ls = (s.shift ls).bind fun s' => (·.top) <$> settle 0 s'.top s'.height s'.below := by
  induction ls generalizing s with
  | nil => rfl
  | cons l ls ih =>
    simp only [feed, shift]
    cases settle l.op.val.precedence s.top s.height s.below with
    | ok s' => exact ih _
    | error op => rfl

theorem shift_append (s : Stack) (xs ys : List Link) :
    s.shift (xs ++ ys) = (s.shift xs).bind fun s' => s'.shift ys := by
  induction xs generalizing s with
  | nil => rfl
  | cons l xs ih =>
    simp only [List.cons_append, shift]
    cases settle l.op.val.precedence s.top s.height s.below with
    | ok s' => exact ih _
    | error op => rfl

/-- Settling at `q` is settling at a tighter `r` first, then at `q`: what binds at least as
tightly as `r` binds at least as tightly as `q`. -/
theorem settle_split {q r : Nat} (hqr : q ≤ r) : ∀ (top : Expr) (h : Nat) (ps : List Pending),
    settle q top h ps = (settle r top h ps).bind fun s => settle q s.top s.height s.below
  | top, h, [] => rfl
  | top, h, p :: ps => by
    by_cases hr : r ≤ p.op.val.precedence
    · have hq : q ≤ p.op.val.precedence := Nat.le_trans hqr hr
      simp only [settle, hr, hq, if_true]
      split
      · exact settle_split hqr _ _ ps
      · rfl
    · simp only [settle, hr, if_false]
      rfl

/-- Settling stops at once under an operand pending on a looser operator. -/
theorem settle_of_looser {prec : Nat} {top : Expr} {h : Nat} {ps : List Pending}
    (hp : ∀ p ∈ ps, p.op.val.precedence < prec) : settle prec top h ps = .ok ⟨top, h, ps⟩ := by
  cases ps with
  | nil => rfl
  | cons p ps =>
    have := hp p List.mem_cons_self
    simp [settle, Nat.not_le.mpr this]

theorem push_eq (s : Stack) (l : Link) :
    s.push l = ⟨l.operand, l.operand.height, ⟨s.top, s.height, l.op⟩ :: s.below⟩ := by
  simp [push, Expr.scanHeight_eq_height]

/-- Shifting a link settles the stack at its precedence, then pushes it. -/
theorem shift_cons (s : Stack) (l : Link) (ls : List Link) :
    s.shift (l :: ls) =
      (settle l.op.val.precedence s.top s.height s.below).bind fun s' => (s'.push l).shift ls := by
  simp only [shift]
  cases settle l.op.val.precedence s.top s.height s.below <;> rfl

/-- Settling after a step may settle at a tighter precedence first. -/
theorem bind_settle_split {q r : Nat} (hqr : q ≤ r) (x : Except (Spanned BinaryOp) Stack) :
    (x.bind fun s => settle q s.top s.height s.below) =
      (x.bind fun s => settle r s.top s.height s.below).bind
        fun s => settle q s.top s.height s.below := by
  rw [Except.bind_assoc]
  congr 1
  funext s
  exact settle_split hqr _ _ _

/-- The reference tree is built on top of the pending operands below it. Above pending operands
that bind more loosely than `prec`, feeding a chain whose operators bind at least as tightly as
`prec` and settling at `prec` leaves the reference tree of the chain, or fails at its first join
in post-order that is too tall. -/
theorem shift_reference (prec : Nat) :
    ∀ (c : Chain) (ps : List Pending), (∀ p ∈ ps, p.op.val.precedence < prec) →
      (∀ l ∈ c.links, prec ≤ l.op.val.precedence) →
      ((shift ⟨c.first, c.first.height, ps⟩ c.links).bind
          fun s => settle prec s.top s.height s.below) =
        match c.joins.find? (fun j => treeLimit < j.2.height) with
        | none => .ok ⟨c.reference, c.reference.height, ps⟩
        | some j => .error j.1 := by
  intro c
  -- induction on the number of links, following the split of the reference tree
  induction hn : c.links.length using Nat.strong_induction_on generalizing c prec with
  | _ n ih =>
  intro ps hps hc
  cases hs : Chain.splitLoosest c.links with
  | none =>
    obtain ⟨x, ls⟩ := c
    obtain rfl : ls = [] := Chain.splitLoosest_eq_none.mp hs
    simp [shift, Except.bind, Chain.joins_of_nil, Chain.reference_of_nil, settle_of_looser hps]
  | some split =>
    obtain ⟨pre, l, post⟩ := split
    obtain ⟨hls, hpre, hpost⟩ := Chain.splitLoosest_eq_some hs
    obtain ⟨hlp, hlq⟩ := Chain.length_lt_of_splitLoosest hs
    have hprec : prec ≤ l.op.val.precedence := hc l (by simp [hls])
    -- the left side settles completely at the precedence of the split link
    have hleft := ih _ (hn ▸ hlp) l.op.val.precedence ⟨c.first, pre⟩ rfl ps
      (fun p hp => Nat.lt_of_lt_of_le (hps p hp) hprec) hpre
    -- the right side settles above it, at one more than the split link's precedence
    have hright := fun (L : Expr) => ih _ (hn ▸ hlq) (l.op.val.precedence + 1) ⟨l.operand, post⟩
      rfl (⟨L, L.height, l.op⟩ :: ps)
      (by
        rintro p (_ | ⟨_, hp⟩)
        · exact Nat.lt_succ_self _
        · have := hps p hp
          omega)
      hpost
    simp only at hleft hright
    rw [hls, Chain.joins_of_split hs, Chain.reference_of_split hs, List.find?_append,
      List.find?_append]
    -- shifting the split link settles the left side first
    rw [shift_append]
    simp only [shift_cons, Except.bind_assoc]
    rw [← Except.bind_assoc, hleft]
    cases hL : (Chain.joins ⟨c.first, pre⟩).find? (fun j => treeLimit < j.2.height) with
    | some j => rfl
    | none =>
      -- the left side is joined into one tree, under which the split link is pushed; settling
      -- at `prec` then settles the right side first
      simp only [Except.ok_bind, Option.none_or, push_eq]
      rw [bind_settle_split (Nat.le_succ_of_le hprec), hright]
      cases hR : (Chain.joins ⟨l.operand, post⟩).find? (fun j => treeLimit < j.2.height) with
      | some j => rfl
      | none =>
        simp only [Option.none_or, List.find?_singleton, Except.ok_bind]
        -- last comes the join at the split link, checked against the limit
        simp only [settle, hprec, if_true, joinPending, Expr.height_join]
        by_cases ht : treeLimit < max (Chain.reference ⟨c.first, pre⟩).height
            (Chain.reference ⟨l.operand, post⟩).height + 1
        · simp [ht]
        · simp [ht, settle_of_looser hps]

end Stack

/-- Assembly builds the reference tree of a chain, or fails at the operator of the first join of
that tree, in post-order, that stands taller than `treeLimit`. -/
theorem Chain.assemble_reference (c : Chain) :
    c.assemble = match c.joins.find? (fun j => treeLimit < j.2.height) with
      | none => .ok c.reference
      | some j => .error j.1 := by
  -- nothing is pending at the start, and the last settling is at the weakest binding
  have h := Stack.shift_reference 0 c [] (by simp) (fun _ _ => Nat.zero_le _)
  rw [Chain.assemble, Stack.feed_eq_shift, Stack.single, Expr.scanHeight_eq_height]
  -- the tree is the top of the stack that the last settling leaves
  have hmap : ∀ x : Except (Spanned BinaryOp) Stack,
      (x.bind fun s => (·.top) <$> Stack.settle 0 s.top s.height s.below) =
        (·.top) <$> x.bind fun s => Stack.settle 0 s.top s.height s.below := by
    intro x
    cases x <;> rfl
  rw [hmap, h]
  cases c.joins.find? (fun j => treeLimit < j.2.height) <;> rfl

namespace Reader

/-- Once a level has read its chain, it gives the tree the chain assembles to, or fails with the
height fault where the cursor stands after seeking back to the operator assembly refused. -/
theorem level_of_read {mode : Mode} {expr : Reader Expr} {r s r' : Reading} {first : Expr}
    {ls : List Link} (hf : unary mode expr r = .ok first s)
    (hl : links (unary mode expr) s.cursor.skipBlanks.unread #[] ⟨s.cursor.skipBlanks, s.warnings⟩ =
      .ok ls r') :
    level mode expr r = match (Chain.mk first ls).assemble with
      | .ok e => .ok e r'
      | .error op => .error (.error (r'.cursor.seek op.span.start).location
          ("expression tree too deep (limit: " ++ Ascii.natDecimal treeLimit ++ ")")
          .nestingTooDeep) r' := by
  simp only [level, bind, EStateM.bind, hf, blanks, cursor, hl]
  cases (Chain.mk first ls).assemble <;> rfl

end Reader

/-- Every chain assembles to its reference tree or fails at the operator of the first join of that
tree, in post-order, taller than `treeLimit`; and a level that has read a chain returns that tree,
or fails with the height fault where the cursor stands after seeking back to that operator. -/
theorem Chain.assemble_eq_reference :
    (∀ c : Chain, c.assemble = match c.joins.find? (fun j => treeLimit < j.2.height) with
      | none => .ok c.reference
      | some j => .error j.1) ∧
    ∀ (mode : Mode) (expr : Reader Expr) (r s r' : Reading) (first : Expr) (ls : List Link),
      Reader.unary mode expr r = .ok first s →
      Reader.links (Reader.unary mode expr) s.cursor.skipBlanks.unread #[]
        ⟨s.cursor.skipBlanks, s.warnings⟩ = .ok ls r' →
      Reader.level mode expr r =
        match (Chain.mk first ls).joins.find? (fun j => treeLimit < j.2.height) with
        | none => .ok (Chain.mk first ls).reference r'
        | some j => .error (.error (r'.cursor.seek j.1.span.start).location
            ("expression tree too deep (limit: " ++ Ascii.natDecimal treeLimit ++ ")")
            .nestingTooDeep) r' := by
  refine ⟨Chain.assemble_reference, fun mode expr r s r' first ls hf hl => ?_⟩
  rw [Reader.level_of_read hf hl, Chain.assemble_reference]
  cases (Chain.mk first ls).joins.find? (fun j => treeLimit < j.2.height) <;> rfl

/-- In `1+2` a level reads the chain `1`, `+ 2`, and returns its reference tree. -/
theorem assemble_eq_reference_sum :
    Reader.unary .strict (Reader.expression .strict 255) ⟨Cursor.start "1+2".toUTF8, []⟩ =
        .ok (.num 1 ⟨0, 1⟩) ⟨(Cursor.start "1+2".toUTF8).forward 1, []⟩ ∧
      Reader.links (Reader.unary .strict (Reader.expression .strict 255))
          ((Cursor.start "1+2".toUTF8).forward 1).skipBlanks.unread #[]
          ⟨((Cursor.start "1+2".toUTF8).forward 1).skipBlanks, []⟩ =
        .ok [⟨⟨.add, ⟨1, 2⟩⟩, .num 2 ⟨2, 3⟩⟩] ⟨(Cursor.start "1+2".toUTF8).forward 3, []⟩ ∧
      Reader.level .strict (Reader.expression .strict 255) ⟨Cursor.start "1+2".toUTF8, []⟩ =
        match (Chain.mk (.num 1 ⟨0, 1⟩) [⟨⟨.add, ⟨1, 2⟩⟩, .num 2 ⟨2, 3⟩⟩]).joins.find?
            (fun j => treeLimit < j.2.height) with
        | none => .ok (Chain.mk (.num 1 ⟨0, 1⟩) [⟨⟨.add, ⟨1, 2⟩⟩, .num 2 ⟨2, 3⟩⟩]).reference
            ⟨(Cursor.start "1+2".toUTF8).forward 3, []⟩
        | some j => .error (.error (((Cursor.start "1+2".toUTF8).forward 3).seek j.1.span.start).location
            ("expression tree too deep (limit: " ++ Ascii.natDecimal treeLimit ++ ")")
            .nestingTooDeep) ⟨(Cursor.start "1+2".toUTF8).forward 3, []⟩ := by
  have hf : Reader.unary .strict (Reader.expression .strict 255) ⟨Cursor.start "1+2".toUTF8, []⟩ =
      .ok (.num 1 ⟨0, 1⟩) ⟨(Cursor.start "1+2".toUTF8).forward 1, []⟩ := rfl
  have hl : Reader.links (Reader.unary .strict (Reader.expression .strict 255))
      ((Cursor.start "1+2".toUTF8).forward 1).skipBlanks.unread #[]
      ⟨((Cursor.start "1+2".toUTF8).forward 1).skipBlanks, []⟩ =
        .ok [⟨⟨.add, ⟨1, 2⟩⟩, .num 2 ⟨2, 3⟩⟩] ⟨(Cursor.start "1+2".toUTF8).forward 3, []⟩ := rfl
  exact ⟨hf, hl, Chain.assemble_eq_reference.2 _ _ _ _ _ _ _ hf hl⟩

end Formula
