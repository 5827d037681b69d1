import Formula.Proofs.Assembly

/-! The assembly stack as a machine of moves (`Stack.Move`): every stack on the way is well formed
(`Stack.Wf`), and a run ends with the one operand it returns (`Chain.assembly_stack_wf`). -/

namespace Formula

namespace Stack

/-- The operands, from the bottom of the stack up. -/
def operands (s : Stack) : List Expr := (s.below.map (·.left)).reverse ++ [s.top]

/-- The heights kept beside the operands, from the bottom up. -/
def heights (s : Stack) : List Nat := (s.below.map (·.height)).reverse ++ [s.height]

/-- The operators between the operands, from the bottom up. -/
def operators (s : Stack) : List (Spanned BinaryOp) := (s.below.map (·.op)).reverse

theorem length_operands (s : Stack) : s.operands.length = s.operators.length + 1 := by
  simp [operands, operators]

theorem length_heights (s : Stack) : s.heights.length = s.operands.length := by
  simp [heights, operands]

/-- A well-formed stack: each height kept is the height of its operand as the work-list walk
finds it, and the operators bind ever more tightly from the bottom up. -/
structure Wf (s : Stack) : Prop where
  heights_eq : s.heights = s.operands.map Expr.scanHeight
  ascending : (s.operators.map (·.val.precedence)).Pairwise (· < ·)

theorem single_wf (e : Expr) : (single e).Wf :=
  ⟨by simp [single, heights, operands], by simp [single, operators]⟩

/-- Seen from the top, the operators bind ever more loosely. -/
theorem wf_iff_below (s : Stack) : s.Wf ↔ (s.height = s.top.scanHeight ∧
    ∀ p ∈ s.below, p.height = p.left.scanHeight) ∧
    (s.below.map (·.op.val.precedence)).Pairwise (· > ·) := by
  have hh : s.heights = s.operands.map Expr.scanHeight ↔ s.height = s.top.scanHeight ∧
      ∀ p ∈ s.below, p.height = p.left.scanHeight := by
    simp only [heights, operands, List.map_append, List.map_reverse, List.map_map,
      List.map_cons, List.map_nil]
    constructor
    · intro h
      obtain ⟨hb, ht⟩ := List.append_inj' h rfl
      refine ⟨by simpa using ht, List.map_inj_left.mp (List.reverse_inj.mp hb)⟩
    · rintro ⟨ht, hb⟩
      rw [ht, List.map_inj_left.mpr hb]
      rfl
  have ho : (s.operators.map (·.val.precedence)).Pairwise (· < ·) ↔
      (s.below.map (·.op.val.precedence)).Pairwise (· > ·) := by
    simp [operators, List.map_reverse, List.pairwise_reverse, List.map_map, Function.comp_def]
  exact ⟨fun h => ⟨hh.mp h.1, ho.mp h.2⟩, fun h => ⟨hh.mpr h.1, ho.mpr h.2⟩⟩

/-- One move of assembly over a stack and the links still to come. While an operator is pending
and binds at least as tightly as the next link's, or any operator once the links are done, the
two top operands are joined, when the join passes the height check. Otherwise the next link is
pushed. -/
inductive Move : Stack × List Link → Stack × List Link → Prop
  | join {top : Expr} {h : Nat} {p : Pending} {ps : List Pending} {ls : List Link} {t : Expr}
      {h' : Nat} : (∀ l ∈ ls.head?, l.op.val.precedence ≤ p.op.val.precedence) →
      joinPending p top h = .ok (t, h') → Move (⟨top, h, p :: ps⟩, ls) (⟨t, h', ps⟩, ls)
  | push {s : Stack} {l : Link} {ls : List Link} :
      (∀ p ∈ s.below.head?, p.op.val.precedence < l.op.val.precedence) →
      Move (s, l :: ls) (s.push l, ls)

/-- From each state at most one move leads on: the guard of a join is the negation of the guard
of a push. -/
theorem Move.deterministic {σ σ₁ σ₂ : Stack × List Link} (h₁ : Move σ σ₁) (h₂ : Move σ σ₂) :
    σ₁ = σ₂ := by
  cases h₁ with
  | join hg hj =>
    cases h₂ with
    | join _ hj' => rw [hj] at hj'; cases hj'; rfl
    | push hg' => exact absurd (hg _ rfl) (Nat.not_le.mpr (hg' _ rfl))
  | push hg =>
    cases h₂ with
    | join hg' _ => exact absurd (hg' _ rfl) (Nat.not_le.mpr (hg _ rfl))
    | push _ => rfl

/-- A move keeps what feeding the rest of the links gives. -/
theorem feed_move {σ σ' : Stack × List Link} (h : Move σ σ') : σ.1.feed σ.2 = σ'.1.feed σ'.2 := by
  cases h with
  | @join top h p ps ls t h' hg hj =>
    cases ls with
    | nil => simp [feed, settle, hj]
    | cons l ls =>
      have hle : l.op.val.precedence ≤ p.op.val.precedence := hg l rfl
      simp [feed, settle, hle, hj]
  | @push s l ls hg =>
    have hs : settle l.op.val.precedence s.top s.height s.below = .ok s := by
      rcases s with ⟨top, h, _ | ⟨p, ps⟩⟩
      · rfl
      · have hlt : p.op.val.precedence < l.op.val.precedence := hg p rfl
        simp [settle, Nat.not_le.mpr hlt]
    simp only [feed, hs]

/-- Feeding nothing to a stack with nothing pending gives its top. -/
theorem feed_done (top : Expr) (h : Nat) : (⟨top, h, []⟩ : Stack).feed [] = .ok top := rfl

/-- A join due and refused by the height check ends the run with its operator. -/
theorem feed_refused {top : Expr} {h : Nat} {p : Pending} {ps : List Pending} {ls : List Link}
    {op : Spanned BinaryOp} (hg : ∀ l ∈ ls.head?, l.op.val.precedence ≤ p.op.val.precedence)
    (hj : joinPending p top h = .error op) : (⟨top, h, p :: ps⟩ : Stack).feed ls = .error op := by
  cases ls with
  | nil => simp [feed, settle, hj]
  | cons l ls =>
    have hle : l.op.val.precedence ≤ p.op.val.precedence := hg l rfl
    simp [feed, settle, hle, hj]

/-- The states of a run: done, one move on, or a join due and refused. -/
theorem move_or_done (σ : Stack × List Link) : (σ.1.below = [] ∧ σ.2 = []) ∨
    (∃ σ', Move σ σ') ∨ ∃ op, σ.1.feed σ.2 = .error op := by
  obtain ⟨⟨top, h, below⟩, ls⟩ := σ
  -- a join is due exactly when an operator is pending that binds at least as tightly as the next
  by_cases hg : ∃ p ps, below = p :: ps ∧ ∀ l ∈ ls.head?, l.op.val.precedence ≤ p.op.val.precedence
  · obtain ⟨p, ps, rfl, hg⟩ := hg
    cases hj : joinPending p top h with
    | ok th => exact .inr (.inl ⟨_, .join hg hj⟩)
    | error op => exact .inr (.inr ⟨op, feed_refused hg hj⟩)
  · cases ls with
    | nil =>
      cases below with
      | nil => exact .inl ⟨rfl, rfl⟩
      | cons p ps => exact absurd ⟨p, ps, rfl, by simp⟩ hg
    | cons l ls =>
      refine .inr (.inl ⟨_, .push fun p hp => ?_⟩)
      cases below with
      | nil => cases hp
      | cons q qs =>
        cases hp
        exact Nat.lt_of_not_le fun hle => hg ⟨p, qs, rfl, by simpa using hle⟩

/-- A run that gives a tree reaches, move by move, the state with that tree alone on the stack
and no links left. -/
theorem reaches_of_feed (σ : Stack × List Link) (e : Expr) (hf : σ.1.feed σ.2 = .ok e) :
    ∃ h, Relation.ReflTransGen Move σ (⟨e, h, []⟩, []) := by
  -- each move joins a pending operand or pushes a link: twice the links plus the pending
  -- operands fall at each move
  induction hn : 2 * σ.2.length + σ.1.below.length using Nat.strong_induction_on
    generalizing σ with
  | _ n ih =>
  rcases move_or_done σ with ⟨hb, hl⟩ | ⟨σ', hm⟩ | ⟨op, he⟩
  · obtain ⟨⟨top, h, below⟩, ls⟩ := σ
    simp only at hb hl
    subst hb hl
    rw [feed_done] at hf
    cases hf
    exact ⟨h, .refl⟩
  · have hlt : 2 * σ'.2.length + σ'.1.below.length < n := by
      subst hn
      cases hm with
      | join => simp
      | push => simp [push]; omega
    obtain ⟨h, hr⟩ := ih _ hlt σ' (feed_move hm ▸ hf) rfl
    exact ⟨h, .head hm hr⟩
  · rw [he] at hf
    cases hf

theorem Wf.join {top : Expr} {h : Nat} {p : Pending} {ps : List Pending} {t : Expr} {h' : Nat}
    (hw : Wf ⟨top, h, p :: ps⟩) (hj : joinPending p top h = .ok (t, h')) : Wf ⟨t, h', ps⟩ := by
  obtain ⟨⟨htop, hbelow⟩, hasc⟩ := (wf_iff_below _).mp hw
  obtain ⟨-, rfl, rfl⟩ := joinPending_eq_ok.mp hj
  refine (wf_iff_below _).mpr ⟨⟨?_, fun q hq => hbelow q (.tail _ hq)⟩, (List.pairwise_cons.mp hasc).2⟩
  -- the kept heights of the two operands give the height of the node over them
  have hp : p.height = p.left.scanHeight := hbelow p List.mem_cons_self
  simp only at htop
  simp only [Expr.scanHeight_eq_height] at htop hp ⊢
  rw [Expr.height_join, htop, hp]

theorem Wf.push {s : Stack} {l : Link} (hw : s.Wf)
    (hg : ∀ p ∈ s.below.head?, p.op.val.precedence < l.op.val.precedence) : (s.push l).Wf := by
  obtain ⟨⟨htop, hbelow⟩, hasc⟩ := (wf_iff_below _).mp hw
  refine (wf_iff_below _).mpr ⟨⟨rfl, ?_⟩, ?_⟩
  · rintro q (_ | ⟨_, hq⟩)
    · exact htop
    · exact hbelow q hq
  · -- the pushed operator binds more tightly than the nearest pending one, hence than all
    refine List.pairwise_cons.mpr ⟨?_, hasc⟩
    intro x hx
    obtain ⟨q, hq, rfl⟩ := List.mem_map.mp hx
    cases hb : s.below with
    | nil => simp [hb] at hq
    | cons p ps =>
      have hpl : p.op.val.precedence < l.op.val.precedence := hg p (by simp [hb])
      rw [hb] at hq hasc
      rcases List.mem_cons.mp hq with rfl | hq
      · exact hpl
      · have hqp : q.op.val.precedence < p.op.val.precedence :=
          List.rel_of_pairwise_cons hasc (List.mem_map_of_mem hq)
        show q.op.val.precedence < l.op.val.precedence
        omega

/-- Each move keeps the stack well formed. -/
theorem Wf.move {σ σ' : Stack × List Link} (hw : σ.1.Wf) (hm : Move σ σ') : σ'.1.Wf := by
  cases hm with
  | join _ hj => exact hw.join hj
  | push hg => exact hw.push hg

/-- Every stack a run passes through is well formed. -/
theorem Wf.reaches {σ σ' : Stack × List Link} (hw : σ.1.Wf) (hr : Relation.ReflTransGen Move σ σ') :
    σ'.1.Wf := by
  induction hr with
  | refl => exact hw
  | tail _ hm ih => exact ih.move hm

end Stack

/-- Through the whole assembly of a chain, before and after every join and every push, the stack
holds one operand more than operators and as many heights as operands, each height that of its
operand, and its operators bind ever more tightly from the bottom up. A join is therefore only
ever made with two operands and an operator on the stack; and when assembly succeeds, the run
ends with the tree it returns as the only operand. -/
theorem Chain.assembly_stack_wf (c : Chain) :
    (∀ σ, Relation.ReflTransGen Stack.Move (Stack.single c.first, c.links) σ →
      σ.1.operands.length = σ.1.heights.length ∧
      σ.1.heights.length = σ.1.operators.length + 1 ∧
      σ.1.heights = σ.1.operands.map Expr.scanHeight ∧
      (σ.1.operators.map (·.val.precedence)).Pairwise (· < ·)) ∧
    ∀ e, c.assemble = .ok e →
      ∃ h, Relation.ReflTransGen Stack.Move (Stack.single c.first, c.links) (⟨e, h, []⟩, []) ∧
        (⟨e, h, []⟩ : Stack).operands = [e] := by
  refine ⟨fun σ hr => ?_, fun e he => ?_⟩
  · have hw := (Stack.single_wf c.first).reaches hr
    exact ⟨(Stack.length_heights _).symm, (Stack.length_heights _).trans (Stack.length_operands _),
      hw.heights_eq, hw.ascending⟩
  · obtain ⟨h, hr⟩ := Stack.reaches_of_feed (Stack.single c.first, c.links) e he
    exact ⟨h, hr, rfl⟩

/-- `1 * 2 + 3`: the product is joined before the sum is pushed, and the run ends with the sum. -/
theorem assembly_stack_wf_sum :
    (⟨.num 1 ⟨0, 1⟩, [⟨⟨.mul, ⟨2, 3⟩⟩, .num 2 ⟨4, 5⟩⟩, ⟨⟨.add, ⟨6, 7⟩⟩, .num 3 ⟨8, 9⟩⟩]⟩ :
        Chain).assemble =
      .ok (.binary (.binary (.num 1 ⟨0, 1⟩) ⟨.mul, ⟨2, 3⟩⟩ (.num 2 ⟨4, 5⟩) ⟨0, 5⟩) ⟨.add, ⟨6, 7⟩⟩
        (.num 3 ⟨8, 9⟩) ⟨0, 9⟩) ∧
    ∃ h, Relation.ReflTransGen Stack.Move
      (Stack.single (.num 1 ⟨0, 1⟩), [⟨⟨.mul, ⟨2, 3⟩⟩, .num 2 ⟨4, 5⟩⟩, ⟨⟨.add, ⟨6, 7⟩⟩, .num 3 ⟨8, 9⟩⟩])
      (⟨.binary (.binary (.num 1 ⟨0, 1⟩) ⟨.mul, ⟨2, 3⟩⟩ (.num 2 ⟨4, 5⟩) ⟨0, 5⟩) ⟨.add, ⟨6, 7⟩⟩
        (.num 3 ⟨8, 9⟩) ⟨0, 9⟩, h, []⟩, []) := by
  have he : (⟨.num 1 ⟨0, 1⟩, [⟨⟨.mul, ⟨2, 3⟩⟩, .num 2 ⟨4, 5⟩⟩, ⟨⟨.add, ⟨6, 7⟩⟩, .num 3 ⟨8, 9⟩⟩]⟩ :
      Chain).assemble =
      .ok (.binary (.binary (.num 1 ⟨0, 1⟩) ⟨.mul, ⟨2, 3⟩⟩ (.num 2 ⟨4, 5⟩) ⟨0, 5⟩) ⟨.add, ⟨6, 7⟩⟩
        (.num 3 ⟨8, 9⟩) ⟨0, 9⟩) := rfl
  obtain ⟨h, hr, -⟩ := (Chain.assembly_stack_wf _).2 _ he
  exact ⟨he, h, hr⟩

end Formula
