import Formula.Proofs.Rereading

/-! How tall a returned tree is: at most `treeLimit + 2 * (nestingLimit - 1)` (`parse_height_le`);
a group around a sum at `treeLimit` is taller than `treeLimit`. -/

namespace Formula

/-- How far below the bound of `Readable.height_le` a tree of each rule stays: a primary
leaves room for the operator that may stand before or after it. -/
def Rule.headroom : Rule → Nat
  | .primary => 1
  | .expression | .unary => 0

theorem Expr.heightList_add_two_le {es : List Expr}
    (h : ∀ x ∈ es, x.height ≤ treeLimit + 2 * x.depth) :
    heightList es + 2 ≤ treeLimit + 2 * depthList es := by
  induction es with
  | nil => simp [heightList, depthList, treeLimit]
  | cons e es ih =>
    have he := h e List.mem_cons_self
    have hs := ih fun x hx => h x (List.mem_cons_of_mem _ hx)
    simp only [heightList, depthList]
    omega

/-- A readable tree stands at most two levels above `treeLimit` for each expression it opens,
and a primary one level less. -/
theorem Readable.height_le {rule : Rule} {e : Expr} (h : Readable rule e) :
    e.height + rule.headroom ≤ treeLimit + 2 * e.depth := by
  induction h with
  | group _ ih =>
    simp only [Expr.height, Expr.depth, Rule.headroom] at ih ⊢
    omega
  | array _ _ ih | call _ _ ih =>
    have := Expr.heightList_add_two_le fun x hx => by simpa [Rule.headroom] using ih x hx
    simp only [Expr.height, Expr.depth, Rule.headroom]
    omega
  | num _ | var _ => simp [Expr.height, Expr.depth, Rule.headroom, treeLimit]
  | plain _ ih =>
    simp only [Rule.headroom] at ih ⊢
    omega
  | affixed _ ih =>
    simp only [Expr.height, Expr.depth, Rule.headroom] at ih ⊢
    omega
  | @chain e _ _ ha ih =>
    -- a chain with links is a binary node under the cap; one without is its only operand
    simp only [Rule.headroom, Nat.add_zero]
    by_cases hl : e.spine.links = []
    · have hsp : e.spine = ⟨e.spine.first, []⟩ := by rw [← hl]
      have hfirst : e.spine.first = e := by
        rw [hsp, Chain.assemble_nil] at ha
        exact Except.ok.inj ha
      have hop := ih e.spine.first List.mem_cons_self
      rw [hfirst] at hop
      simpa [Rule.headroom] using hop
    · exact Nat.le_trans (Chain.height_assemble_le hl ha) (Nat.le_add_right _ _)

/-- Every tree a reading returns, in either mode, is at most `2 * (nestingLimit - 1)` levels
taller than `treeLimit`. -/
theorem parse_height_le {text : ByteArray} {mode : Mode} {e : Expr}
    (h : (Expr.parse text mode).result = .ok e) :
    e.height ≤ treeLimit + 2 * (nestingLimit - 1) := by
  obtain ⟨hread, hdepth⟩ := parseWithin_sound h
  have hle := hread.height_le
  simp only [Rule.headroom] at hle
  omega

theorem parse_height_le_repaired :
    (Expr.group (.var "a" ⟨1, 2⟩) ⟨0, 2⟩).height ≤ treeLimit + 2 * (nestingLimit - 1) :=
  parse_height_le (show (Expr.parse "(a".toUTF8 .lenient).result =
    .ok (Expr.group (.var "a" ⟨1, 2⟩) ⟨0, 2⟩) by rfl)

namespace Expr

/-- The sum `1 + 1 + ⋯ + 1` of `n + 1` ones, leaning left as assembly builds it. -/
def ones : Nat → Expr
  | 0 => num 1 ⟨0, 0⟩
  | n + 1 => join (ones n) ⟨.add, ⟨0, 0⟩⟩ (num 1 ⟨0, 0⟩)

/-- The link `+ 1` that each step of `ones` adds. -/
def plusOne : Link := ⟨⟨.add, ⟨0, 0⟩⟩, ones 0⟩

theorem height_ones (n : Nat) : (ones n).height = n + 1 := by
  induction n with
  | zero => rfl
  | succ n ih =>
    rw [ones, height_join, ih]
    simp [height]

theorem depth_ones (n : Nat) : (ones n).depth = 0 := by
  induction n with
  | zero => rfl
  | succ n ih => simp [ones, join, depth, ih]

theorem spine_ones (n : Nat) : (ones n).spine = ⟨ones 0, List.replicate n plusOne⟩ := by
  induction n with
  | zero => rfl
  | succ n ih =>
    show (join (ones n) plusOne.op (ones 0)).spine = _
    rw [spine_join, ih]
    simp only [Chain.append, List.replicate_succ']
    rfl

theorem guardedAfter_ones (n : Nat) : Link.guardedAfter (ones 0) (List.replicate n plusOne) = true := by
  induction n with
  | zero => rfl
  | succ n ih =>
    show (!(ones 0).clashes plusOne.op.val && Link.guardedAfter (ones 0) _) = true
    rw [ih]
    rfl

end Expr

open Formula.Expr in
/-- Below a pending sum of `k + 1` ones, feeding `m` more links `+ 1` sums all the ones. -/
theorem Stack.feed_ones : ∀ (m k : Nat), k + m + 2 ≤ treeLimit →
    Stack.feed ⟨ones 0, 1, [⟨ones k, k + 1, plusOne.op⟩]⟩ (List.replicate m plusOne) =
      .ok (ones (k + m + 1))
  | 0, k, h => by
    have hj : joinPending ⟨ones k, k + 1, plusOne.op⟩ (ones 0) 1 = .ok (ones (k + 1), k + 2) :=
      joinPending_eq_ok.mpr ⟨by simp; omega, rfl, by simp⟩
    simp [feed, settle, hj]
  | m + 1, k, h => by
    have hj : joinPending ⟨ones k, k + 1, plusOne.op⟩ (ones 0) 1 = .ok (ones (k + 1), k + 2) :=
      joinPending_eq_ok.mpr ⟨by simp; omega, rfl, by simp⟩
    have hs : settle plusOne.op.val.precedence (ones 0) 1 [⟨ones k, k + 1, plusOne.op⟩] =
        .ok ⟨ones (k + 1), k + 2, []⟩ := by
      simp [settle, hj]
    rw [List.replicate_succ]
    refine feed_cons_eq_ok.mpr ⟨_, hs, ?_⟩
    rw [show k + (m + 1) + 1 = k + 1 + m + 1 by omega]
    exact feed_ones m (k + 1) (by omega)

open Formula.Expr in
theorem Expr.assemble_ones {n : Nat} (h : n + 1 ≤ treeLimit) :
    (ones n).spine.assemble = .ok (ones n) := by
  rw [spine_ones]
  cases n with
  | zero => rfl
  | succ m =>
    rw [Chain.assemble, List.replicate_succ]
    refine Stack.feed_cons_eq_ok.mpr ⟨_, Stack.settle_nil_eq_ok.mpr rfl, ?_⟩
    have hf := Stack.feed_ones m 0 (by omega)
    rw [show 0 + m + 1 = m + 1 by omega] at hf
    exact hf

/-- A sum of ones within the cap is readable. -/
theorem Expr.readable_ones {n : Nat} (h : n + 1 ≤ treeLimit) : Readable .expression (ones n) := by
  refine .chain ?_ ?_ (assemble_ones h) <;> rw [spine_ones]
  · intro x hx
    have hx' : x = ones 0 := by
      simp only [Chain.operands, List.map_replicate, List.mem_cons, List.mem_replicate] at hx
      rcases hx with hx | ⟨-, hx⟩ <;> exact hx
    subst hx'
    exact .plain (.num (by decide))
  · exact guardedAfter_ones n

/-- A group around a sum of ones within the cap reads back to a tree of its height. -/
theorem parseWithin_grouped_ones {n b : Nat} (hn : n + 1 ≤ treeLimit) (hb : 1 < b) :
    ∃ e, (Expr.parseWithin b (Expr.group (Expr.ones n) ⟨0, 0⟩).toSource.toUTF8 .strict).result =
      .ok e ∧ e.height = n + 2 := by
  have hr : Readable .expression (Expr.group (Expr.ones n) ⟨0, 0⟩) :=
    Readable.of_primary (.group (Expr.readable_ones hn))
  obtain ⟨e, he, hsh⟩ := parseWithin_sourceBytes hr
    (by simpa [Expr.depth, Expr.depth_ones] using hb)
  refine ⟨e, he, ?_⟩
  rw [← Expr.height_eq_of_sameShape hsh]
  simp [Expr.height, Expr.height_ones]

/-- The sum of `treeLimit` ones in a group reads to a tree one level taller than
`treeLimit`. -/
theorem parse_grouped_sum_height :
    ∃ e, (Expr.parse (Expr.group (Expr.ones (treeLimit - 1)) ⟨0, 0⟩).toSource.toUTF8
      .strict).result = .ok e ∧ treeLimit < e.height := by
  obtain ⟨e, he, hh⟩ := parseWithin_grouped_ones (n := treeLimit - 1) (b := nestingLimit)
    (by decide) (by decide)
  exact ⟨e, he, by rw [hh]; decide⟩

end Formula
