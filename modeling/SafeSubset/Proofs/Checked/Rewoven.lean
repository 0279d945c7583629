import SafeSubset.Proofs.Checked.Reference
import SafeSubset.Proofs.Checked.Tree
import SafeSubset.Proofs.Edits.Fills
import SafeSubset.Proofs.Grammar.Nested
import SafeSubset.Proofs.Grammar.Separating
import SafeSubset.Proofs.Token.Retained

/-! The tokens of a node whose parts have been rewritten. Where each part has
tokens that are its text, so has the node, with its own tokens as they were; and
where those of the parts write their trees, so do those of the node. The comments
of the node are those before its own tokens and those of the parts. -/
namespace SafeSubset.Checked

open Token (Spaced Holds Lexes Soft Fronts Retains textOf width extent regap commentsOf)
open Edits (Fills)
open Source (Stretch)

variable {source : Source} {clear : Prop} {o : Nat} {e : Expr Ty} {ts us vs : List Spaced}
  {gs : List (List Spaced)} {parts : List (Expr Ty × List Spaced)} {x y : Source}

/-- Whether a place lies between the operands of a checked operation. The call in the place
of the operation has nothing of the source there. -/
def dropped (s : Span) (e : Expr Ty) : Bool :=
  (operation? e).isSome && match e.children with
    | [l, r] => l.span.stop ≤ s.start && s.stop ≤ r.span.start
    | _ => false

/-- Whether all places in an expression that are dropped are among the lost ones. -/
def Covers (lost : Span → Bool) (e : Expr Ty) : Prop :=
  ∀ d ∈ e.subexpressions, ∀ s, dropped s d = true → lost s = true

theorem Covers.child {lost : Span → Bool} {c : Expr Ty} (h : Covers lost e) (child : c ∈ e.children) :
    Covers lost c :=
  fun d deep => h d (Expr.mem_subexpressions.2 (.inr ⟨c, child, deep⟩))

/-- The tokens `ts'` stand for what the tokens `ts` of an expression have become,
and write its tree if that is `clear`. -/
structure Rewrites (source : Source) (clear : Prop) (o : Nat) (e : Expr Ty) (ts ts' : List Spaced) :
    Prop where
  spelled : clear → (tree e).Spelled ts'
  fills : Fills source o (patches source e) (o + width ts) (textOf ts')
  fronts : Fronts (2 ≤ e.level) ts ts'
  lexes : ∀ x y, Lexes ts x → Soft x y → Lexes ts' y
  /-- A single token has been one before. -/
  single : ts'.length = 1 → ts' = ts
  /-- What is replaced is cut into its tokens whatever follows. -/
  final : (operation? e).isSome = true → ∀ x, Lexes ts x → ∀ y, Lexes ts' y
  retains : ∀ lost, Covers lost e →
    Retains lost (extent o ts).start ((regap [] ts).flatMap Spaced.pieces) (commentsOf (regap [] ts'))

/-- The tokens `ts'` are woven from parts that have been rewritten. -/
structure Rewoven (source : Source) (clear : Prop) (o : Nat) (gs : List (List Spaced))
    (parts parts' : List (Expr Ty × List Spaced)) (ts ts' : List Spaced) : Prop where
  exprs : parts'.map Prod.fst = (parts.map Prod.fst).map tree
  weave : Weave (fun _ t us => clear → t.Spelled us) 0 gs parts' ts'
  singles : List.Forall₂ (fun p p' : Expr Ty × List Spaced => p'.2.length = 1 → p'.2 = p.2) parts parts'
  fills : Fills source o ((parts.map Prod.fst).flatMap (patches source)) (o + width ts) (textOf ts')
  lexes : ∀ x y, Lexes ts x → Soft x y → Lexes ts' y
  retains : ∀ lost, (∀ p ∈ parts, Covers lost p.1) → Retains lost o (ts.flatMap Spaced.pieces) (commentsOf ts')

theorem stretch_of_holds (holds : Holds source o ts) : source.Stretch o (textOf ts) (o + width ts) := by
  obtain ⟨before, after, same, length⟩ := holds
  exact ⟨before, after, same, length, rfl⟩

theorem rewoven_last (holds : Holds source o ts) : Rewoven source clear o [ts] [] [] ts ts :=
  ⟨rfl, .last, .nil, .done (stretch_of_holds holds), fun _ _ => Lexes.soft, fun lost _ => .refl lost o _⟩

/-- One part more, behind tokens of the node. -/
theorem Rewoven.part {g us' vs' : List Spaced} {parts' : List (Expr Ty × List Spaced)}
    (holds : Holds source o g) (before : ∀ x y, Lexes g (textOf us ++ x) → Lexes g (textOf us' ++ y))
    (rewrites : Rewrites source clear (o + width g) e us us')
    (soft : ∀ x y, Lexes vs x → Soft x y → Soft (textOf vs ++ x) (textOf vs' ++ y))
    (rewoven : Rewoven source clear (o + width g + width us) gs parts parts' vs vs') :
    Rewoven source clear o (g :: gs) ((e, us) :: parts) ((tree e, us') :: parts') (g ++ us ++ vs)
      (g ++ us' ++ vs') where
  exprs := by simp [rewoven.exprs]
  weave := .part g us' rewrites.spelled (rewoven.weave.anywhere (fun _ _ _ spelled _ => spelled) _)
  singles := .cons rewrites.single rewoven.singles
  fills := by
    have filled := (rewrites.fills.append rewoven.fills).prepend (stretch_of_holds holds)
    simpa [Nat.add_assoc] using filled
  lexes := by
    intro x y cut next
    simp only [List.append_assoc, Token.lexes_append, Token.textOf_append] at cut ⊢
    obtain ⟨front, part, rest⟩ := cut
    exact ⟨before _ _ front, rewrites.lexes _ _ part (soft x y rest next), rewoven.lexes x y rest next⟩
  retains := by
    intro lost covers
    have own := Retains.behind_gap rewrites.fronts (rewrites.retains lost (covers _ List.mem_cons_self))
    have others := rewoven.retains lost fun p member => covers p (List.mem_cons_of_mem _ member)
    have front := (Retains.refl lost o (g.flatMap Spaced.pieces)).tokens own
    rw [Token.commentsOf_append, Token.commentsOf_append]
    exact front.tokens (by rwa [Token.width_append, ← Nat.add_assoc])

theorem soft_of_startsMark {g : List Spaced} (starts : StartsMark g) (vs vs' : List Spaced)
    (cut : Lexes g (textOf vs ++ x)) (y : Source) :
    Soft (textOf (g ++ vs) ++ x) (textOf (g ++ vs') ++ y) := by
  obtain ⟨t, us, m, rfl, mark⟩ := starts
  obtain ⟨c, cs, text⟩ : ∃ c cs, textOf (t :: us) = c :: cs := by
    refine List.exists_cons_of_ne_nil fun none => ?_
    have wide := Token.width_pos (List.cons_ne_nil t us)
    simp [width, none] at wide
  have word := cut.mark_first mark
  rw [text] at word
  rw [Token.textOf_append, Token.textOf_append, text]
  exact ⟨.inl rfl, fun d head => word d head⟩

/-- The parts behind the first one. -/
theorem rewoven_of_separating (separating : Separating gs) (weave : Weave Expr.Located o gs parts ts)
    (holds : Holds source o ts)
    (each : ∀ p ∈ parts, ∀ o, p.1.Located o p.2 → Holds source o p.2 →
      ∃ us', Rewrites source clear o p.1 p.2 us') :
    ∃ parts' ts', Rewoven source clear o gs parts parts' ts ts' ∧
      ∀ x y, Lexes ts x → Soft x y → Soft (textOf ts ++ x) (textOf ts' ++ y) := by
  induction weave with
  | @last o g =>
      refine ⟨[], g, rewoven_last holds, ?_⟩
      intro x y cut next
      rcases separating with ⟨rfl | starts⟩ | ⟨starts, -, -⟩
      · exact next
      · simpa using soft_of_startsMark starts [] [] (by simpa using cut) y
      · simpa using soft_of_startsMark starts [] [] (by simpa using cut) y
  | @part o g us vs e gs parts written rest ih =>
      rcases separating with - | ⟨starts, ends, others⟩
      · cases rest
      rw [List.append_assoc] at holds
      have inner := holds.right
      obtain ⟨us', rewrites⟩ := each _ List.mem_cons_self _ written inner.left
      obtain ⟨parts', vs', rewoven, soft⟩ := ih others inner.right
        fun p member => each p (List.mem_cons_of_mem _ member)
      refine ⟨_, _, rewoven.part holds.left ?_ rewrites soft, ?_⟩
      · obtain ⟨init, t, m, rfl, mark⟩ := ends
        intro x y cut
        exact cut.front rewrites.fronts (.inl ⟨m, mark⟩) y
      · intro x y cut _
        rw [List.append_assoc, List.append_assoc]
        refine soft_of_startsMark starts _ _ ?_ y
        rw [List.append_assoc, Token.lexes_append] at cut
        exact cut.1

section Tree

theorem created_tree (e : Expr Ty) : (tree e).created? = e.created? := by
  cases e with
  | binary i op l r => unfold tree; split <;> rfl
  | assign i op l r => unfold tree; split <;> rfl
  | index i base k => cases k <;> rfl
  | _ => rfl

/-- Nothing becomes looser. -/
theorem level_tree (e : Expr Ty) : (tree e).level ≤ e.level := by
  cases e with
  | binary i op l r =>
      unfold tree
      split
      · exact Nat.zero_le _
      · exact Nat.le_refl _
  | assign i op l r =>
      unfold tree
      split <;> exact Nat.le_refl _
  | index i base k => cases k <;> exact Nat.le_refl _
  | unary i op fixity e => cases fixity <;> exact Nat.le_refl _
  | _ => exact Nat.le_refl _

theorem groups_tree (plain : operation? e = none) : (tree e).Groups = e.Groups := by
  cases e with
  | binary i op l r => rw [tree_binary_of_none plain]; rfl
  | assign i op l r => rw [tree_assign_of_none plain]; rfl
  | index i base k => cases k <;> rfl
  | unary i op fixity e => cases fixity <;> rfl
  | call i callee args names =>
      funext gs
      simp [tree, Expr.Groups, trees_eq, Function.comp_def]
  | tuple i es =>
      funext gs
      simp [tree, Expr.Groups, trees_eq, Function.comp_def]
  | _ => rfl

theorem fits_tree (plain : operation? e = none) (fits : e.Fits) : (tree e).Fits := by
  cases e with
  | binary i op l r =>
      rw [tree_binary_of_none plain]
      exact ⟨Nat.le_trans (level_tree l) fits.1, Nat.lt_of_le_of_lt (level_tree r) fits.2⟩
  | assign i op l r =>
      rw [tree_assign_of_none plain]
      exact Nat.le_trans (level_tree l) fits
  | index i base k =>
      cases k with
      | none => exact ⟨Nat.le_zero.1 (fits.1 ▸ level_tree base), (created_tree base).trans fits.2⟩
      | some k => exact Nat.le_zero.1 (fits ▸ level_tree base)
  | unary i op fixity e =>
      cases fixity with
      | before => exact Nat.le_trans (level_tree e) fits
      | after => exact Nat.le_zero.1 (fits ▸ level_tree e)
  | call i callee args names => exact Nat.le_zero.1 (fits ▸ level_tree callee)
  | member i base m =>
      refine ⟨Nat.le_zero.1 (fits.1 ▸ level_tree base), fun s p => ?_⟩
      rw [created_tree]
      exact fits.2 s p
  | conditional i c t f => exact Nat.le_trans (level_tree c) fits
  | _ => trivial

theorem apart_tree (plain : operation? e = none) {parts parts' : List (Expr Ty × List Spaced)}
    (singles : List.Forall₂ (fun p p' : Expr Ty × List Spaced => p'.2.length = 1 → p'.2 = p.2) parts parts')
    (apart : e.Apart (parts.map Prod.snd)) : (tree e).Apart (parts'.map Prod.snd) := by
  cases e with
  | index i base k =>
      cases k with
      | none => trivial
      | some k =>
          simp only [tree, Expr.Apart, created_tree] at apart ⊢
          refine apart.imp_right fun apart b n same => ?_
          cases singles with
          | nil => cases same
          | @cons p p' _ _ first others =>
              cases others with
              | nil => cases same
              | @cons q q' rest rest' second more =>
                  cases more with
                  | cons => simp at same
                  | nil =>
                      obtain ⟨-, alone⟩ := List.cons.inj same
                      have alone : q'.2 = [n] := List.head_eq_of_cons_eq alone
                      have was := second (by rw [alone]; rfl)
                      exact apart p.2 n (by simp [← was, alone])
  | binary i op l r => rw [tree_binary_of_none plain]; trivial
  | assign i op l r => rw [tree_assign_of_none plain]; trivial
  | _ => trivial

end Tree

theorem Fronts.refl (some : ts ≠ []) (loose : Prop) : Fronts loose ts ts := by
  obtain ⟨t, us, rfl⟩ := List.exists_cons_of_ne_nil some
  exact ⟨t, us, t, us, rfl, rfl, rfl, .inl rfl⟩

section Node

variable {parts parts' : List (Expr Ty × List Spaced)} {ts' g us' vs' : List Spaced} {c : Expr Ty}

/-- A node is rewritten with its parts, if its first token, its being one token and
its comments come out right. -/
theorem Rewoven.node (rewoven : Rewoven source clear o gs parts parts' ts ts') (plain : operation? e = none)
    (groups : e.Groups gs) (fits : e.Fits) (apart : e.Apart (parts.map Prod.snd))
    (children : parts.map Prod.fst = e.children) (fronts : Fronts (2 ≤ e.level) ts ts')
    (single : ts'.length = 1 → ts' = ts)
    (retains : ∀ lost, Covers lost e → Retains lost (extent o ts).start
      ((regap [] ts).flatMap Spaced.pieces) (commentsOf (regap [] ts'))) :
    Rewrites source clear o e ts ts' where
  spelled holds := by
    refine .node gs parts' ?_ (fits_tree plain fits) (apart_tree plain rewoven.singles apart) ?_
      (rewoven.weave.anywhere (fun _ _ _ spelled _ => spelled holds) 0)
    · rwa [groups_tree plain]
    · rw [rewoven.exprs, children, children_tree plain]
  fills := by
    rw [patches_of_none plain, ← children]
    exact rewoven.fills
  fronts := fronts
  lexes := rewoven.lexes
  single := single
  final fires := by simp [plain] at fires
  retains := retains

/-- Besides a part there is a token of the node. -/
theorem Rewoven.one_lt_length (rewoven : Rewoven source clear o gs parts parts' ts ts') (groups : e.Groups gs)
    {p : Expr Ty × List Spaced} (part : p ∈ parts') (some : p.2 ≠ []) : 1 < ts'.length := by
  obtain ⟨front, behind, same, -, own⟩ := rewoven.weave.split part
  have part := List.length_pos_iff.2 some
  have others := List.length_pos_iff.2 groups.flatten_ne_nil
  have length := congrArg List.length same
  simp only [List.length_append] at length own
  omega

/-- A node starts with its own first token, or else as its first part does. -/
theorem fronts_node (before : g = [] ∧ (2 ≤ c.level → 2 ≤ e.level) ∨ Expr.Before (2 ≤ c.level) g)
    (fronts : Fronts (2 ≤ c.level) us us') :
    Fronts (2 ≤ e.level) (g ++ us ++ vs) (g ++ us' ++ vs') := by
  rcases before with ⟨rfl, loose⟩ | ⟨init, t, rfl, -⟩
  · exact (fronts.mono loose).append vs vs'
  · have own := List.append_ne_nil_of_right_ne_nil init (List.cons_ne_nil t [])
    simpa only [List.append_assoc] using (Fronts.refl own _).append (us ++ vs) (us' ++ vs')

/-- The comments of a node whose first part stands behind the tokens `g`. -/
theorem retains_node {lost : Span → Bool} {loose : Prop} (some : us ≠ []) (fronts : Fronts loose us us')
    (own : Retains lost (extent (o + width g) us).start ((regap [] us).flatMap Spaced.pieces)
      (commentsOf (regap [] us')))
    (others : Retains lost (o + width g + width us) (vs.flatMap Spaced.pieces) (commentsOf vs')) :
    Retains lost (extent o (g ++ us ++ vs)).start ((regap [] (g ++ us ++ vs)).flatMap Spaced.pieces)
      (commentsOf (regap [] (g ++ us' ++ vs'))) := by
  rcases List.eq_nil_or_concat g with rfl | ⟨init, t, rfl⟩
  · rw [List.nil_append, List.nil_append, Token.extent_append _ some,
      Token.regap_append [] fronts.ne_nil, Token.commentsOf_append]
    exact own.tokens_bare some (by simpa using others)
  · rw [List.concat_eq_append] at own others ⊢
    have before := List.append_ne_nil_of_right_ne_nil init (List.cons_ne_nil t [])
    have inside := (own.behind_gap fronts).tokens others
    rw [List.append_assoc _ us vs, List.append_assoc _ us' vs', Token.extent_append _ before,
      Token.regap_append [] before (us' ++ vs'), Token.commentsOf_append, Token.commentsOf_append us']
    exact (Retains.refl lost _ _).tokens_bare before inside

/-- The tokens before the first part end where they ended. -/
theorem lexes_before {loose : Prop} (before : g = [] ∨ Expr.Before loose g) (fronts : Fronts loose us us')
    (x y : Source) (cut : Lexes g (textOf us ++ x)) : Lexes g (textOf us' ++ y) := by
  rcases before with rfl | ⟨init, t, rfl, kind⟩
  · trivial
  · exact cut.front fronts kind y

end Node

/-- A node that is not replaced itself has the tokens of its parts in their
places. -/
theorem rewrites_of_none (plain : operation? e = none) (located : e.Located o ts)
    (holds : Holds source o ts)
    (each : ∀ c ∈ e.children, ∀ o us, c.Located o us → Holds source o us →
      ∃ us', Rewrites source clear o c us us') : ∃ ts', Rewrites source clear o e ts ts' := by
  have some := located.ne_nil
  obtain ⟨gs, parts, groups, fits, -, apart, children, weave⟩ := located
  cases weave with
  | last =>
      exact ⟨ts, (rewoven_last holds).node plain groups fits apart children (Fronts.refl some _)
        (fun _ => rfl) fun lost _ => .refl lost _ _⟩
  | @part _ g us vs c gs parts written rest =>
      obtain ⟨g', gs', same, separating, before⟩ := groups.framed fits children.symm
      cases same
      rw [List.append_assoc] at holds
      have inner := holds.right
      have member : ∀ p ∈ (c, us) :: parts, p.1 ∈ e.children := fun p inside =>
        children ▸ List.mem_map_of_mem inside
      obtain ⟨us', rewrites⟩ := each c (member _ List.mem_cons_self) _ us written inner.left
      obtain ⟨parts', vs', rewoven, soft⟩ := rewoven_of_separating separating rest inner.right
        fun p inside o => each p.1 (member p (List.mem_cons_of_mem _ inside)) o p.2
      have woven := rewoven.part holds.left
        (lexes_before (before.imp_left And.left) rewrites.fronts) rewrites soft
      refine ⟨_, woven.node plain groups fits apart children (fronts_node before rewrites.fronts)
        (fun single => ?_) fun lost covers => ?_⟩
      · have more := woven.one_lt_length groups List.mem_cons_self rewrites.fronts.ne_nil
        exact absurd single (Nat.ne_of_gt more)
      · exact retains_node written.ne_nil rewrites.fronts
          (rewrites.retains lost (covers.child (member _ List.mem_cons_self)))
          (rewoven.retains lost fun p inside => covers.child (member p (List.mem_cons_of_mem _ inside)))

end SafeSubset.Checked
