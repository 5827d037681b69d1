import Formula.Proofs.Rereading

/-! What the nesting limit rejects: a text whose tree opens `nestingLimit` expressions or more, the
whole text's included (`parse_eq_ok_iff_depth_lt`). -/

namespace Formula

namespace Expr

mutual

/-- A path passes at most one group, array or call more than the expressions it opens: only a
call without arguments opens none. -/
theorem nesting_le_depth : ∀ e : Expr, e.nesting ≤ e.depth + 1
  | unary _ _ x _ => by simpa [nesting, depth] using nesting_le_depth x
  | binary l _ r _ => by
    have := nesting_le_depth l
    have := nesting_le_depth r
    simp only [nesting, depth]
    omega
  | group x _ => by
    have := nesting_le_depth x
    simp only [nesting, depth]
    omega
  | array es _ | call _ es _ => by
    have := nestingList_le_depthList es
    simp only [nesting, depth]
    omega
  | num .. | var .. => by simp [nesting, depth]

theorem nestingList_le_depthList : ∀ es : List Expr, nestingList es ≤ depthList es
  | [] => by simp [nestingList, depthList]
  | e :: es => by
    have := nesting_le_depth e
    have := nestingList_le_depthList es
    simp only [nestingList, depthList]
    omega

end

mutual

theorem depth_eq_of_sameShape : ∀ {e e' : Expr}, sameShape e e' = true → e.depth = e'.depth
  | unary _ _ x _, e', h => by
    cases e' <;> simp only [sameShape, Bool.and_eq_true, Bool.false_eq_true] at h
    simp [depth, depth_eq_of_sameShape h.2]
  | binary l _ r _, e', h => by
    cases e' <;> simp only [sameShape, Bool.and_eq_true, Bool.false_eq_true] at h
    simp [depth, depth_eq_of_sameShape h.1.2, depth_eq_of_sameShape h.2]
  | group x _, e', h => by
    cases e' <;> simp only [sameShape, Bool.false_eq_true] at h
    simp [depth, depth_eq_of_sameShape h]
  | array es _, e', h => by
    cases e' <;> simp only [sameShape, Bool.false_eq_true] at h
    simp [depth, depthList_eq_of_sameShapeList h]
  | call _ as _, e', h => by
    cases e' <;> simp only [sameShape, Bool.and_eq_true, Bool.false_eq_true] at h
    simp [depth, depthList_eq_of_sameShapeList h.2]
  | num .., e', h | var .., e', h => by cases e' <;> simp_all [sameShape, depth]

theorem depthList_eq_of_sameShapeList : ∀ {es es' : List Expr}, sameShapeList es es' = true →
    depthList es = depthList es'
  | [], es', h => by cases es' <;> simp_all [sameShapeList]
  | e :: es, es', h => by
    cases es' <;> simp only [sameShapeList, Bool.and_eq_true, Bool.false_eq_true] at h
    simp [depthList, depth_eq_of_sameShape h.1, depthList_eq_of_sameShapeList h.2]

end

end Expr

namespace Reader

section Transfer

/- Each reader gives the same answer over another expression reader `expr'` that agrees with
`expr` on every tree opening fewer than `k` expressions, as long as the tree it returns stays
within `k`. -/
variable {mode : Mode} {expr expr' : Reader Expr} {k : Nat}
  (hx : ∀ {r r' : Reading} {e : Expr}, expr r = .ok e r' → e.depth < k → expr' r = .ok e r')
include hx

theorem items_transfer : ∀ {n : Nat} {acc : Array Expr} {r r' : Reading} {es : List Expr},
    items expr n acc r = .ok es r' → (∀ x ∈ es, x.depth < k) → items expr' n acc r = .ok es r'
  | 0, _, _, _, _, h, hd => by
    obtain ⟨e, s, he, rfl, rfl⟩ := items_zero_eq_ok.mp h
    exact items_zero_eq_ok.mpr ⟨e, s, hx he (hd e (by simp)), rfl, rfl⟩
  | n + 1, _, _, _, es, h, hd => by
    obtain ⟨e, s, he, hrest⟩ := items_succ_eq_ok.mp h
    have hmem : e ∈ es := by
      rcases hrest with ⟨c, -, hi⟩ | ⟨-, rfl, -⟩
      · obtain ⟨es₁, rfl, -, -⟩ := items_each (fun _ => trivial) hi
        simp
      · simp
    refine items_succ_eq_ok.mpr ⟨e, s, hx he (hd e hmem), ?_⟩
    rcases hrest with ⟨c, hc, hi⟩ | hnone
    · exact .inl ⟨c, hc, items_transfer hi hd⟩
    · exact .inr hnone

theorem primary_transfer {r r' : Reading} {e : Expr} (h : primary mode expr r = .ok e r')
    (hd : e.depth ≤ k) : primary mode expr' r = .ok e r' := by
  rcases primary_eq_ok.mp h with ⟨d, inner, s, hd₁, hi, hc, rfl⟩ |
      ⟨hp, d, elems, s, hd₁, hi, hc, rfl⟩ | ⟨hp, hs, ho, name, d, args, s, hn, ha, hc, rfl⟩ |
      hnum | hvar
  · simp only [Expr.depth] at hd
    exact primary_eq_ok.mpr (.inl ⟨d, inner, s, hd₁, hx hi (by omega), hc, rfl⟩)
  · exact primary_eq_ok.mpr (.inr (.inl ⟨hp, d, elems, s, hd₁,
      items_transfer hx hi (Expr.lt_of_depthList_le hd), hc, rfl⟩))
  · refine primary_eq_ok.mpr (.inr (.inr (.inl ⟨hp, hs, ho, name, d, args, s, hn, ?_, hc, rfl⟩)))
    by_cases h41 : d.advance.skipBlanks.peek = 41
    · rw [if_pos h41] at ha ⊢
      exact ha
    · rw [if_neg h41] at ha ⊢
      exact items_transfer hx ha (Expr.lt_of_depthList_le hd)
  · exact primary_eq_ok.mpr (.inr (.inr (.inr (.inl hnum))))
  · exact primary_eq_ok.mpr (.inr (.inr (.inr (.inr hvar))))

theorem unary_transfer {r r' : Reading} {e : Expr} (h : unary mode expr r = .ok e r')
    (hd : e.depth ≤ k) : unary mode expr' r = .ok e r' := by
  rcases unary_eq_ok.mp h with ⟨op, d, x, hu, hp, rfl⟩ | ⟨hu, x, s, hp, hpost⟩
  · exact unary_eq_ok.mpr (.inl ⟨op, d, x, hu, primary_transfer hx hp hd, rfl⟩)
  · -- an operator after the primary opens no expression
    have hxd : x.depth ≤ k := by
      rcases hpost with ⟨op, d, -, rfl, -⟩ | ⟨-, rfl, -⟩ <;> exact hd
    exact unary_eq_ok.mpr (.inr ⟨hu, x, s, primary_transfer hx hp hxd, hpost⟩)

theorem links_transfer : ∀ {n : Nat} {acc : Array Link} {r r' : Reading} {ls : List Link},
    links (unary mode expr) n acc r = .ok ls r' → (∀ l ∈ ls, l.operand.depth ≤ k) →
      links (unary mode expr') n acc r = .ok ls r'
  | 0, _, _, _, _, h, _ => links_zero_eq_ok.mpr (links_zero_eq_ok.mp h)
  | n + 1, _, _, _, _, h, hd => by
    rcases links_succ_eq_ok.mp h with hnone | ⟨op, d, u, s, hb, hu, hl⟩
    · exact links_succ_eq_ok.mpr (.inl hnone)
    · obtain ⟨ls₁, rfl, -⟩ := links_each (fun _ => trivial) hl
      have hud : u.depth ≤ k := hd ⟨op, u⟩ (by simp)
      exact links_succ_eq_ok.mpr
        (.inr ⟨op, d, u, s, hb, unary_transfer hx hu hud, links_transfer hl hd⟩)

/-- A level reads the same tree over `expr'`. Its operands open no more expressions than the
tree they are assembled into, which takes the spine of the tree, so soundness of `expr` is
needed to know that the operands are not binary. -/
theorem level_transfer {r r' : Reading} {e : Expr} (h : level mode expr r = .ok e r')
    (hd : e.depth ≤ k) : level mode expr' r = .ok e r' := by
  obtain ⟨first, s, ls, hf, hl, ha, hsp⟩ := level_spine h
  -- every operand of the spine opens no more expressions than the whole tree
  have hops : ∀ y ∈ (Chain.mk first ls).operands, y.depth ≤ k := fun y hy =>
    Nat.le_trans (Expr.depth_le_of_mem_spine (by rw [hsp]; exact hy)) hd
  exact level_eq_ok.mpr ⟨first, s, ls, unary_transfer hx hf (hops first List.mem_cons_self),
    links_transfer hx hl fun l hm => hops _ (List.mem_cons_of_mem _ (List.mem_map_of_mem hm)), ha⟩

end Transfer

/-- Any budget above the depth of the tree an expression reading returns reads the same tree to
the same place. -/
theorem expression_transfer {mode : Mode} : ∀ {b b' : Nat} {r r' : Reading} {e : Expr},
    expression mode b r = .ok e r' → e.depth < b' → expression mode b' r = .ok e r'
  | 0, _, _, _, _, h, _ => absurd h expression_zero_ne_ok
  | _ + 1, 0, _, _, _, _, hd => absurd hd (Nat.not_lt_zero _)
  | _ + 1, _ + 1, _, _, _, h, hd =>
    level_transfer (fun h' hd' => expression_transfer h' hd') h (Nat.le_of_lt_succ hd)

end Reader

/-- A text read with one budget is read to the same tree with any budget above its depth. -/
theorem parseWithin_transfer {b b' : Nat} {text : ByteArray} {mode : Mode} {e : Expr}
    (h : (Expr.parseWithin b text mode).result = .ok e) (hd : e.depth < b') :
    (Expr.parseWithin b' text mode).result = .ok e := by
  obtain ⟨r', hr⟩ := parseWithin_eq_ok.mp h
  obtain ⟨s, hx, hend⟩ := Reader.document_eq_ok.mp hr
  exact parseWithin_eq_ok.mpr
    ⟨r', Reader.document_eq_ok.mpr ⟨s, Reader.expression_transfer hx hd, hend⟩⟩

/-- Under the nesting limit a text reads to a tree exactly when some budget reads it to that
tree and the tree opens fewer than `nestingLimit` expressions; such a tree nests at most
`nestingLimit` groups, arrays and calls on any path. -/
theorem parse_eq_ok_iff_depth_lt {text : ByteArray} {mode : Mode} {e : Expr} :
    (Expr.parse text mode).result = .ok e ↔
      (∃ b, (Expr.parseWithin b text mode).result = .ok e) ∧ e.depth < nestingLimit ∧
        e.nesting ≤ nestingLimit := by
  constructor
  · intro h
    have hd := (parseWithin_sound h).2
    exact ⟨⟨nestingLimit, h⟩, hd, Nat.le_trans (Expr.nesting_le_depth e) hd⟩
  · rintro ⟨⟨b, h⟩, hd, -⟩
    exact parseWithin_transfer h hd

namespace Expr

/-- The tree `x` inside `n` groups. -/
def grouped : Nat → Expr → Expr
  | 0, x => x
  | n + 1, x => group (grouped n x) ⟨0, 0⟩

theorem depth_grouped (n : Nat) (x : Expr) : (grouped n x).depth = x.depth + n := by
  induction n with
  | zero => rfl
  | succ n ih => simp [grouped, depth, ih, Nat.add_assoc]

theorem nesting_grouped (n : Nat) (x : Expr) : (grouped n x).nesting = x.nesting + n := by
  induction n with
  | zero => rfl
  | succ n ih => simp [grouped, nesting, ih, Nat.add_assoc]

theorem readable_grouped {x : Expr} (h : Readable .primary x) :
    ∀ n, Readable .primary (grouped n x)
  | 0 => h
  | n + 1 => .group (readable_grouped h n).of_primary

end Expr

/-- Groups nested `n` deep around `1` read back, with any budget above `n`, to a tree that opens
`n` expressions. -/
theorem parseWithin_grouped_one {n b : Nat} (hb : n < b) :
    ∃ e, (Expr.parseWithin b (Expr.grouped n (.num 1 ⟨0, 0⟩)).toSource.toUTF8 .strict).result =
      .ok e ∧ e.depth = n := by
  have hr := (Expr.readable_grouped (.num (v := 1) (s := ⟨0, 0⟩) (by decide)) n).of_primary
  obtain ⟨e, he, hsh⟩ := parseWithin_sourceBytes hr
    (by simpa [Expr.depth_grouped, Expr.depth] using hb)
  refine ⟨e, he, ?_⟩
  rw [← Expr.depth_eq_of_sameShape hsh, Expr.depth_grouped]
  simp [Expr.depth]

/-- `nestingLimit` groups around `1` nest no deeper than the limit and are read with one more
unit of budget, but not under the limit. -/
theorem parse_rejects_groups_at_limit :
    (Expr.grouped nestingLimit (.num 1 ⟨0, 0⟩)).nesting = nestingLimit ∧
      (∃ e, (Expr.parseWithin (nestingLimit + 1)
        (Expr.grouped nestingLimit (.num 1 ⟨0, 0⟩)).toSource.toUTF8 .strict).result = .ok e) ∧
      ∀ e, (Expr.parse (Expr.grouped nestingLimit (.num 1 ⟨0, 0⟩)).toSource.toUTF8
        .strict).result ≠ .ok e := by
  obtain ⟨e, he, hd⟩ := parseWithin_grouped_one (n := nestingLimit) (Nat.lt_succ_self _)
  refine ⟨by simp [Expr.nesting_grouped, Expr.nesting], ⟨e, he⟩, fun e' he' => ?_⟩
  -- read under the limit, the tree would be read the same with the larger budget
  have hlt := (parseWithin_sound he').2
  have hmore := parseWithin_transfer he' (show e'.depth < nestingLimit + 1 by omega)
  rw [he] at hmore
  cases hmore
  omega

end Formula
