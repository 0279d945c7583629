import SafeSubset.Proofs.Checked.Inserted
import SafeSubset.Proofs.Checked.Pending

/-! The text for an expression is cut into tokens, which write its tree if the
compound assignments in it assign to places. What is replaced becomes the tokens
of a call, what stands around keeps its own, and a token that comes first stands
behind the trivia that stood there before. -/
namespace SafeSubset

/-- Whether an expression is a place that can be written twice: a name, a member,
an element or something in parentheses. -/
def Expr.IsPlace {α : Type} : Expr α → Prop
  | .identifier .. | .member .. | .index .. | .tuple .. => True
  | _ => False

instance {α : Type} : (e : Expr α) → Decidable e.IsPlace
  | .identifier .. | .member .. | .index .. | .tuple .. => .isTrue trivial
  | .number .. | .string .. | .bool .. | .elementary .. | .binary .. | .unary .. | .assign ..
  | .call .. | .conditional .. | .new .. => .isFalse id

/-- Whether what a compound assignment assigns to is a place. -/
def Expr.AssignsPlace {α : Type} : Expr α → Prop
  | .assign _ op l _ => op = .assign ∨ l.IsPlace
  | _ => True

instance {α : Type} : (e : Expr α) → Decidable e.AssignsPlace
  | .assign .. => inferInstanceAs (Decidable (_ ∨ _))
  | .identifier .. | .number .. | .string .. | .bool .. | .elementary .. | .binary .. | .unary ..
  | .call .. | .member .. | .index .. | .conditional .. | .tuple .. | .new .. => .isTrue trivial

namespace Checked

open Token (Spaced Holds Lexes Parted Soft Fronts Retains core textOf width extent regap commentsOf)
open Edits (Fills)
open Source (Stretch)

/-- Whether a created type with a name of its own is another than the checked one. -/
def CreatesOther : Expr Ty → Prop
  | .new i t => i.note.isChecked = true → ∀ s p, t ≠ .user s p
  | _ => True

variable {source : Source} {clear : Prop} {o : Nat} {e l r : Expr Ty} {ts ts' ls rs : List Spaced}
  {x y : Source} {op : Operation}

/-- Where the trivia before some tokens stand. -/
theorem stretch_gap (located : e.Located o ts) (holds : Holds source o ts) :
    source.Stretch o (gapOf ts).flatten e.span.start := by
  obtain ⟨some, same⟩ := located.span
  obtain ⟨t, us, rfl⟩ := List.exists_cons_of_ne_nil some
  rw [same]
  have whole := stretch_of_holds holds
  rw [Token.gapText_core some] at whole
  exact whole.left

/-- The text for an expression is the text of what its tokens have become. -/
theorem Rewrites.text (rewrites : Rewrites source clear o e ts ts') (located : e.Located o ts)
    (holds : Holds source o ts) : outText source e = core ts' := by
  have same := located.span.2
  have arranged := arranged_patches source located.nested
  have stop : e.span.stop = o + width ts := congrArg Span.stop same
  rw [stop] at arranged
  obtain ⟨v, text, fills⟩ := rewrites.fills.split (stretch_gap located holds) arranged
  have body := Token.gapText_core rewrites.fronts.ne_nil
  obtain ⟨t, us, t', us', rfl, rfl, gap, -⟩ := rewrites.fronts
  have texts : t'.gap.flatten ++ core (t' :: us') = t.gap.flatten ++ v := body.symm.trans text
  rw [gap] at texts
  rw [List.append_cancel_left texts, ← fills.substituted, ← stop]
  rfl

/-- What is replaced becomes the tokens of its text. -/
theorem Rewrites.replaced (fires : operation? e = some op) (located : e.Located o ts)
    (holds : Holds source o ts) (spelled : clear → (tree e).Spelled ts') (text : core ts' = outText source e)
    (fronts : Fronts (2 ≤ e.level) ts ts') (lexes : ∀ x, Lexes ts x → ∀ y, Lexes ts' y)
    (several : 1 < ts'.length)
    (retains : ∀ lost, Covers lost e → Retains lost (extent o ts).start
      ((regap [] ts).flatMap Spaced.pieces) (commentsOf (regap [] ts'))) :
    Rewrites source clear o e ts ts' where
  spelled := spelled
  fills := by
    have gap := stretch_gap located holds
    have stop : e.span.stop = o + width ts := congrArg Span.stop located.span.2
    have body := Token.gapText_core fronts.ne_nil
    have rest : Fills source e.span.stop [] (o + width ts) [] :=
      .done (stop ▸ (stretch_of_holds holds).nil)
    have filled : Fills source o [(e.span, outText source e)] (o + width ts) _ := .edit gap rest
    obtain ⟨t, us, t', us', rfl, rfl, same, -⟩ := fronts
    rw [patches_of_some fires, body, text]
    simpa [gapOf, Token.Spaced.gapText, same] using filled
  fronts := fronts
  lexes := fun x y cut _ => lexes x cut y
  single := fun one => by omega
  final := fun _ => lexes
  retains := retains

/-- What remains of the comments of an operation is what remains of those of its operands. -/
theorem retains_operands {lost : Span → Bool} {us vs : List Spaced} {t : Spaced} {xs ys : List Source}
    (fires : operation? e = some op) (children : e.children = [l, r]) (covers : Covers lost e)
    (located : l.Located o us) (located' : r.Located (o + width us + width [t]) vs)
    (left : Retains lost (extent o us).start ((regap [] us).flatMap Spaced.pieces) xs)
    (right : Retains lost (extent (o + width us + width [t]) vs).start
      ((regap [] vs).flatMap Spaced.pieces) ys) :
    Retains lost (extent o (us ++ ([t] ++ vs))).start
      ((regap [] (us ++ ([t] ++ vs))).flatMap Spaced.pieces) (xs ++ ys) := by
  refine left.around located.ne_nil located'.ne_nil right fun s starts stops => ?_
  refine covers e e.self_mem_subexpressions s ?_
  simp only [dropped, fires, children, located.span.2, located'.span.2, Option.isSome_some, Bool.true_and,
    Bool.and_eq_true, decide_eq_true_eq]
  exact ⟨starts, stops⟩

/-- What ends before the text behind it ends before whatever goes on with no token. -/
theorem Rewrites.closed (rewrites : Rewrites source clear o e ts ts') (cut : Lexes ts x) : Closed ts' :=
  fun _ stop z => rewrites.lexes x _ cut (Token.soft_of_stop stop z)

theorem Rewrites.ended (rewrites : Rewrites source clear o e ts ts') (cut : Lexes ts x) :
    Ended (gapOf ts') := by
  obtain ⟨t, us, t', us', rfl, rfl, gap, -⟩ := rewrites.fronts
  intro c z solid
  obtain ⟨d, ds, chars⟩ := List.exists_cons_of_ne_nil t.chars_ne
  have parted := (Token.lexes_cons.1 cut).1
  have here := cut.solid d (by simp [chars])
  rw [chars] at parted
  show Parted t'.gap (c :: z)
  rw [gap]
  exact parted.congr here fun e head => Option.some.inj head ▸ solid

/-- The receiver's first token stands where the operand's stood. -/
theorem fronts_receiverTokens {loose : Prop} (holds : loose) (fronts : Fronts loose ls ts) :
    Fronts loose ls (receiverTokens l ts) := by
  obtain ⟨t, us, t', us', rfl, rfl, gap, chars⟩ := fronts
  unfold receiverTokens
  split
  · exact ⟨t, us, _, _, rfl, rfl, gap, .inr ⟨holds, .inr rfl⟩⟩
  · split
    · exact ⟨t, us, _, _, rfl, rfl, gap, .inr ⟨holds, .inl rfl⟩⟩
    · exact ⟨t, us, t', us', rfl, rfl, gap, chars⟩

/-- A receiver binds as tightly as anything, and is no creation of a type with a
name of its own. -/
theorem level_receiverTree (tight : l.level ≤ 12) (other : CreatesOther l) :
    (receiverTree l (tree l)).level = 0 ∧
      ∀ s p, (receiverTree l (tree l)).created? ≠ some (.user s p) := by
  have none : ∀ {t : Expr Ty}, t.created? = none → ∀ s p, t.created? ≠ some (.user s p) := by
    intro t none s p same
    cases none.symm.trans same
  unfold receiverTree
  split
  · exact ⟨rfl, none rfl⟩
  · next checked =>
    have checked : l.type.isChecked = true := isChecked_iff.2 (not_not.1 checked)
    split
    · exact ⟨rfl, none rfl⟩
    · next plain =>
      have fires : Loose l → Fires l := fun loose => by_contra fun stays => plain ⟨loose, stays⟩
      rw [created_tree]
      cases l with
      | binary i op l r =>
          rw [tree, if_pos (fires (.binary i op l r))]
          exact ⟨rfl, none rfl⟩
      | assign i op l r => exact absurd tight (show ¬ 14 ≤ 12 by decide)
      | conditional i c t f => cases fires (.conditional i c t f)
      | unary i op fixity e =>
          cases fixity with
          | before => cases fires (.unary i op e)
          | after => exact ⟨rfl, none rfl⟩
      | new i t =>
          refine ⟨rfl, fun s p same => ?_⟩
          exact other checked s p (Option.some.inj same)
      | index i base k => cases k <;> exact ⟨rfl, none rfl⟩
      | _ => exact ⟨rfl, none rfl⟩

theorem rewrites_binary {i : Info Ty} {o' : BinaryOp}
    (fires : operation? (.binary i o' l r) = some op) (other : clear → CreatesOther l)
    (located : (Expr.binary i o' l r).Located o ts) (holds : Holds source o ts)
    (left : ∀ o us, l.Located o us → Holds source o us → ∃ us', Rewrites source clear o l us us')
    (right : ∀ o us, r.Located o us → Holds source o us → ∃ us', Rewrites source clear o r us us') :
    ∃ ts', Rewrites source clear o (.binary i o' l r) ts ts' := by
  have whole := located
  obtain ⟨gs, parts, groups, fits, -, -, children, weave⟩ := located
  obtain ⟨t, rfl, -⟩ := groups
  obtain ⟨us, vs, rfl, written, written'⟩ := weave.infix children
  have level : 2 ≤ o'.level ∧ o'.level ≤ 12 := by cases o' <;> decide
  have inLeft := holds.left
  have inRight := holds.right.right
  obtain ⟨us', left⟩ := left _ us written inLeft
  obtain ⟨vs', right⟩ := right _ vs written' inRight
  have fronts := fronts_receiverTokens (l := l) (show 2 ≤ (Expr.binary i o' l r).level from level.1)
    (left.fronts.mono fun _ => level.1)
  refine ⟨callTokens (receiverTokens l us') op vs', .replaced fires whole holds ?_ ?_ ?_ ?_ ?_ ?_⟩
  · intro holds
    obtain ⟨tight, created⟩ := level_receiverTree (Nat.le_trans fits.1 level.2) (other holds)
    rw [tree_binary fires]
    exact spelled_callTokens i (spelled_receiverTokens (left.spelled holds)) tight created
      (right.spelled holds)
  · rw [core_callTokens fronts.ne_nil, core_receiverTokens, outText_binary fires,
      left.text written inLeft, right.text written' inRight]
  · rw [callTokens, List.append_assoc]
    exact fronts.append _ _
  · intro x cut y
    obtain ⟨first, second⟩ := Token.lexes_append.1 cut
    have second := (Token.lexes_append.1 second).2
    exact lexes_callTokens (closed_receiverTokens (left.closed first) (left.ended first))
      (right.closed second)
  · simp only [callTokens, parenTokens, List.length_append, List.length_cons]
    omega
  · intro lost covers
    rw [commentsOf_callTokens fronts.ne_nil, commentsOf_receiverTokens]
    exact retains_operands fires rfl covers written written'
      (left.retains lost (covers.child (by simp [Expr.children])))
      (right.retains lost (covers.child (by simp [Expr.children])))

theorem level_of_isPlace (place : l.IsPlace) : l.level = 0 ∧ l.created? = none := by
  cases l <;> first | exact ⟨rfl, rfl⟩ | exact place.elim

/-- The tokens of an assignment of a call to what is called. -/
def assignTokens (ls : List Spaced) (op : Operation) (rs : List Spaced) : List Spaced :=
  ls ++ markToken [[' ']] .assign :: Token.regap [[' ']] (callTokens ls op rs)

theorem spelled_assignTokens {i j : Info Ty} (place : l.IsPlace) (left : (tree l).Spelled ls)
    (right : (tree r).Spelled rs) :
    (Expr.assign i .assign (tree l) (libraryCall j (tree l) op.method (tree r))).Spelled
      (assignTokens ls op rs) := by
  obtain ⟨level, created⟩ := level_of_isPlace place
  have tight : (tree l).level = 0 := Nat.le_zero.1 (level ▸ level_tree l)
  have other : ∀ s p, (tree l).created? ≠ some (.user s p) := by
    intro s p same
    cases (created.symm.trans (created_tree l).symm).trans same
  refine left.assign (Nat.le_trans (Nat.le_of_eq tight) (Nat.zero_le 12)) ?_ rfl
  exact (spelled_callTokens j left tight other right).regap [[' ']]

theorem core_assignTokens (some : ls ≠ []) :
    core (assignTokens ls op rs) = core ls ++ " = ".toList ++ callText (core ls) op (core rs) := by
  have call_some : callTokens ls op rs ≠ [] := by simp [callTokens]
  have behind : textOf (Token.regap [[' ']] (callTokens ls op rs)) = _ := textOf_regap call_some
  rw [assignTokens, core_append some, ← core_callTokens some]
  simp only [textOf] at behind
  simp [textOf, behind, Spaced.text, Spaced.gapText, markToken, Token.Mark.text]

/-- What is assigned to is written twice, and so are the comments in it. -/
theorem commentsOf_assignTokens (some : ls ≠ []) :
    commentsOf (regap [] (assignTokens ls op rs)) =
      commentsOf (regap [] ls) ++ (commentsOf (regap [] ls) ++ commentsOf (regap [] rs)) := by
  have call_some : callTokens ls op rs ≠ [] := by simp [callTokens]
  rw [assignTokens, Token.regap_append [] some, Token.commentsOf_append, Token.commentsOf_cons,
    Token.commentsOf_regap _ call_some, commentsOf_callTokens some]
  rfl

theorem lexes_assignTokens (left : Closed ls) (right : Closed rs) (y : Source) :
    Lexes (assignTokens ls op rs) y := by
  have called : Lexes (callTokens ls op rs) y := lexes_callTokens left right
  have call_some : callTokens ls op rs ≠ [] := by simp [callTokens]
  obtain ⟨t, us, same⟩ := List.exists_cons_of_ne_nil call_some
  obtain ⟨c, cs, chars⟩ := List.exists_cons_of_ne_nil t.chars_ne
  have solid : Token.isSpace c = false := by
    rw [same] at called
    exact called.solid c (by simp [chars])
  have behind : textOf (Token.regap [[' ']] (callTokens ls op rs)) = _ := textOf_regap call_some
  refine Token.lexes_append.2 ⟨left ' ' (by decide) _, Token.lexes_cons.2 ⟨?_, ?_, called.regap ?_⟩⟩
  · exact ended_space '=' _ rfl
  · rw [behind]
    exact ⟨'=', [], rfl, rfl⟩
  · rw [same]
    simpa [core, chars] using ended_space c _ solid

theorem rewrites_assign {i : Info Ty} {o' : AssignOp} (fires : operation? (.assign i o' l r) = some op)
    (place : clear → l.IsPlace) (located : (Expr.assign i o' l r).Located o ts)
    (holds : Holds source o ts)
    (left : ∀ o us, l.Located o us → Holds source o us → ∃ us', Rewrites source clear o l us us')
    (right : ∀ o us, r.Located o us → Holds source o us → ∃ us', Rewrites source clear o r us us') :
    ∃ ts', Rewrites source clear o (.assign i o' l r) ts ts' := by
  have whole := located
  obtain ⟨gs, parts, groups, -, -, -, children, weave⟩ := located
  obtain ⟨t, rfl, -⟩ := groups
  obtain ⟨us, vs, rfl, written, written'⟩ := weave.infix children
  have inLeft := holds.left
  have inRight := holds.right.right
  obtain ⟨us', left⟩ := left _ us written inLeft
  obtain ⟨vs', right⟩ := right _ vs written' inRight
  have some := left.fronts.ne_nil
  refine ⟨assignTokens us' op vs', .replaced fires whole holds ?_ ?_ ?_ ?_ ?_ ?_⟩
  · intro holds
    rw [tree_assign fires]
    exact spelled_assignTokens (place holds) (left.spelled holds) (right.spelled holds)
  · rw [core_assignTokens some, outText_assign fires, left.text written inLeft,
      right.text written' inRight]
  · exact (left.fronts.mono fun _ => show 2 ≤ 14 by decide).append _ _
  · intro x cut y
    obtain ⟨first, second⟩ := Token.lexes_append.1 cut
    have second := (Token.lexes_append.1 second).2
    exact lexes_assignTokens (left.closed first) (right.closed second) y
  · have := List.length_pos_iff.2 some
    simp only [assignTokens, callTokens, parenTokens, List.length_append, List.length_cons]
    omega
  · intro lost covers
    have once := retains_operands fires rfl covers written written'
      (left.retains lost (covers.child (by simp [Expr.children])))
      (right.retains lost (covers.child (by simp [Expr.children])))
    rw [commentsOf_assignTokens some]
    exact once.again (List.append_subset.1 once.old).1

/-- The tokens of an expression become the tokens of its text, which write its
tree if every compound assignment in it assigns to a place. -/
theorem exists_rewrites (regular : clear → ∀ d ∈ e.subexpressions, d.AssignsPlace ∧ CreatesOther d)
    (located : e.Located o ts) (holds : Holds source o ts) :
    ∃ ts', Rewrites source clear o e ts ts' := by
  induction e using Expr.induction_children generalizing o ts with
  | node e ih =>
      have inner : ∀ c ∈ e.children, ∀ o us, c.Located o us → Holds source o us →
          ∃ us', Rewrites source clear o c us us' := by
        intro c member o us
        refine ih c member fun holds d inside => ?_
        exact regular holds d (Expr.mem_subexpressions.2 (.inr ⟨c, member, inside⟩))
      cases fires : operation? e with
      | none => exact rewrites_of_none fires located holds inner
      | some op =>
          cases e with
          | binary i o' l r =>
              refine rewrites_binary fires (fun holds => ?_) located holds
                (inner l (by simp [Expr.children])) (inner r (by simp [Expr.children]))
              have member : l ∈ (Expr.binary i o' l r).subexpressions := by
                simp [Expr.subexpressions, Expr.self_mem_subexpressions]
              exact (regular holds l member).2
          | assign i o' l r =>
              refine rewrites_assign fires (fun holds => ?_) located holds
                (inner l (by simp [Expr.children])) (inner r (by simp [Expr.children]))
              refine (regular holds _ (Expr.self_mem_subexpressions _)).1.resolve_left ?_
              rintro rfl
              cases (operation_plainAssign i l r).symm.trans fires
          | _ => cases fires

end Checked
end SafeSubset
