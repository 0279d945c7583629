import SafeSubset.Proofs.Checked.Reread
import SafeSubset.Proofs.Checked.Tokens
import SafeSubset.Proofs.Edits.Comments

/-! The comments of a rewritten file. Those of the source are there in their order, except
the ones between the operands of an operation that is replaced, and no others but those of
the library. What stands before a replaced expression may become a part of another word by
that, but of no comment. -/
namespace SafeSubset.Checked

open Edits (Inset)
open Token (Spaced Holds Piece Faultless Cuts Comment Mild Whole width extent pieces openings comments
  commentsOf commentsIn keptTexts)

variable {source x y : Source} {d : Expr Ty} {c : Contract Ty} {lost : Span → Bool} {fresh : List Source}
  {ts us before behind : List Spaced} {tail : List Source} {t : Spaced} {p : Edit}

/-- Whether a place in a file lies between the operands of an operation that is replaced. -/
def droppedIn (u : SourceUnit Ty) (s : Span) : Bool :=
  u.contracts.any fun c => rewrites u c && c.expressions.any (dropped s)

/-- What is replaced in a contract is dropped there alone. -/
theorem covers_droppedIn {u : SourceUnit Ty} {e : Expr Ty} (inside : c ∈ u.contracts) (free : rewrites u c = true)
    (root : e ∈ c.roots) (deep : d ∈ e.subexpressions) : Covers (droppedIn u) d := by
  intro b deeper s between
  have member : b ∈ c.expressions := by
    rw [Contract.expressions_eq]
    exact List.mem_flatMap.2 ⟨e, root, Expr.mem_subexpressions_trans deeper deep⟩
  simp only [droppedIn, List.any_eq_true, Bool.and_eq_true]
  exact ⟨c, inside, free, b, member, between⟩

section Texts

theorem last_lines (s : String) {t : String} {c : Char} (h : t.toList.getLast? = some c) :
    (s ++ t).toList.getLast? = some c := by
  rw [String.toList_append, List.getLast?_append, h]
  rfl

theorem library_last : librarySource.getLast? = some '\n' := last_lines _ (by decide +kernel)

theorem whole_library : Whole librarySource := by
  have faultless := sealed_library.faultless [] rfl
  rw [List.append_nil] at faultless
  exact Token.whole_of_newline faultless library_last

theorem comments_directive : Whole directiveSource ∧ comments directiveSource = [] := by
  have plain : ∀ d ∈ directiveSource, d ∉ openings := List.all_iff_forall_prop.1 (by decide +kernel)
  exact ⟨Token.whole_of_plain plain, by simpa using Token.comments_plain plain []⟩

end Texts

/-- What stands before a token may stand before a text that starts as that does, or with a
bracket or a conversion. -/
theorem ends_before (cuts : Cuts (piecesBefore before t) (t.chars ++ x))
    (solid : ∀ d ∈ t.chars.head?, Token.isSpace d = false)
    (head : y.head? = (t.chars ++ x).head? ∨ y.head? = some '(' ∨ y.head? = some 'u') :
    ∀ p ∈ (piecesBefore before t).getLast?, p.Ends y := by
  intro p last
  have ends := Token.ends_of_cuts (sound_piecesBefore before t) cuts p last
  obtain ⟨a, as, chars⟩ := List.exists_cons_of_ne_nil t.chars_ne
  have first : Token.isSpace a = false := solid a (by simp [chars])
  rcases head with same | other
  · exact ends.congr same
  · rw [chars] at ends
    refine ends.of_solid first fun b own => ?_
    rcases other with opens | word
    · obtain rfl := Option.some.inj (opens.symm.trans own)
      decide
    · obtain rfl := Option.some.inj (word.symm.trans own)
      decide

section Places

variable (cut : pieces source = ts.flatMap Spaced.pieces ++ tail.map (⟨.trivia, ·⟩))

include cut

/-- Text that is put in before a token. -/
theorem inset_of_point {text : Source} (among : ts = before ++ (t :: (us ++ behind)))
    (ends : ∀ p ∈ (piecesBefore before t).getLast?, ∀ y, p.Ends (text ++ y)) (whole : Whole text)
    (own : comments text ⊆ fresh) :
    Inset lost fresh source (.point (extent (width before) (t :: us)).start, text) := by
  obtain ⟨bs, same, starts, stops⟩ := place_of_point cut among
  exact ⟨⟨_, [], bs, same, starts, stops, ends, List.nil_sublist _, fun x member => .inr (own member)⟩, whole⟩

theorem inset_of_library (among : ts = before ++ us ++ behind) (placed : c.Placed (width before) us) :
    Inset lost (comments librarySource) source (.point c.span.start, librarySource) := by
  obtain ⟨t, us, rfl⟩ := List.exists_cons_of_ne_nil placed.some
  rw [placed.span]
  have among : ts = before ++ (t :: (us ++ behind)) := by simp [among]
  refine inset_of_point cut among (fun p _ y => ?_) whole_library (List.Subset.refl _)
  obtain ⟨rest, newline⟩ := library_newline
  rw [newline]
  exact p.ends_newline _

theorem inset_of_directive (among : ts = before ++ us ++ behind) (placed : c.Placed (width before) us) :
    Inset lost fresh source (.point c.entry, directiveSource) := by
  obtain ⟨init, a, t, vs, rfl, -, place⟩ := entry_of_placed cut among placed
  have among : ts = (before ++ (init ++ [a])) ++ (t :: (vs ++ behind)) := by simp [among]
  obtain ⟨x, cuts, -, solid⟩ := cuts_here cut among
  obtain ⟨whole, none⟩ := comments_directive
  rw [place]
  refine inset_of_point cut among (fun p last y => ?_) whole (by simp [none])
  obtain ⟨rest, first⟩ := directive_word
  exact ends_before cuts solid (.inr (.inr (by simp [first]))) p last

/-- A replaced expression has the comments of its operands. -/
theorem inset_of_operation (fires : (operation? d).isSome = true) (covers : Covers lost d)
    (holds : Holds source 0 ts) (among : ts = before ++ us ++ behind) (located : d.Located (width before) us) :
    Inset lost fresh source (d.span, outText source d) := by
  obtain ⟨some, place⟩ := located.span
  obtain ⟨t, us, rfl⟩ := List.exists_cons_of_ne_nil some
  have here : Holds source (width before) (t :: us) := by
    rw [among, List.append_assoc] at holds
    simpa using holds.right.left
  obtain ⟨x, cuts, -, solid⟩ := cuts_here cut (among.trans (List.append_assoc _ _ _))
  obtain ⟨ts', rewrites, text, bare⟩ := tokens_of_operation cut fires here among located
  obtain ⟨own, whole⟩ := Token.comments_of_lexes bare (Token.sound_pieces _)
  rw [Token.flatMap_chars, text] at own whole
  obtain ⟨bs, same, starts, stops⟩ := place_of_tokens cut among
  obtain ⟨kept, old⟩ := rewrites.retains lost covers
  rw [place]
  refine ⟨⟨_, _, bs, same, starts, stops, fun p last y => ?_, ?_, fun x member => .inl ?_⟩, whole⟩
  · exact ends_before cuts solid (head_outText located here x y) p last
  · rw [own]
    exact kept
  · rw [own] at member
    exact old member

end Places

/-- Rewriting an accepted file keeps every comment, in order, that is not between the operands
of an operation that is replaced, and adds none but those of the library. -/
theorem harden_comments {u : SourceUnit Ty} (accepted : source.front = .ok u) :
    (commentsIn source).map Comment.text = comments source ∧
      (keptTexts (droppedIn u) (commentsIn source)).Sublist (comments (harden source u).text) ∧
      (∀ x ∈ keptTexts (droppedIn u) (commentsIn source), x <:+: (harden source u).text) ∧
      ∀ x ∈ comments (harden source u).text, x ∈ comments source ∨ x ∈ comments librarySource := by
  obtain ⟨-, -, faultless, -⟩ := Source.front_annotate accepted
  obtain ⟨ts, tail, cut, holds, laid⟩ := Source.front_placed accepted
  have insets : ∀ p ∈ fileEdits source u, Inset (droppedIn u) (comments librarySource) source p := by
    intro p member
    cases editOf_of_mem laid member with
    | library among placed => exact inset_of_library cut among placed
    | directive among placed => exact inset_of_directive cut among placed
    | @operation c _ _ _ _ _ undefined inside changed root deep edit fires among located =>
        have free : rewrites u c = true := by
          obtain ⟨stays, -⟩ := of_decide_eq_true changed
          simp [rewrites, undefined, stays]
        exact inset_of_operation cut fires (covers_droppedIn inside free root deep) holds among located
  obtain ⟨behind, known⟩ := Edits.comments_substituted faultless insets (arranged_fileEdits accepted)
    (List.nil_append _).symm rfl rfl
  rw [← harden_edits accepted] at behind known
  rw [← Token.comments_eq faultless] at known
  exact ⟨Token.texts_commentsIn faultless, behind,
    fun x member => Token.infix_of_mem_comments (behind.subset member), known⟩

/-- A file with comments before an operation, in an operand, behind it, and between operands. -/
def commentedSource : Source :=
  "contract C \x7b uint a; /* b */ uint b = a + /* sum */ a * (a /* a */); // c\n \x7d".toList

theorem harden_comments_operands : ∃ u, commentedSource.front = .ok u ∧
    (commentsIn commentedSource).length = 4 ∧
    keptTexts (droppedIn u) (commentsIn commentedSource) = ["/* b */".toList, "/* a */".toList, "// c".toList] ∧
    (commentsIn commentedSource).map Comment.text = comments commentedSource ∧
      (keptTexts (droppedIn u) (commentsIn commentedSource)).Sublist (comments (harden commentedSource u).text) ∧
      (∀ x ∈ keptTexts (droppedIn u) (commentsIn commentedSource), x <:+: (harden commentedSource u).text) ∧
      ∀ x ∈ comments (harden commentedSource u).text,
        x ∈ comments commentedSource ∨ x ∈ comments librarySource := by
  have accepted : commentedSource.front.toOption.any (fun u => (commentsIn commentedSource).length == 4 &&
      keptTexts (droppedIn u) (commentsIn commentedSource) ==
        ["/* b */".toList, "/* a */".toList, "// c".toList]) = true := by
    decide +kernel
  obtain ⟨u, found, facts⟩ := exists_of_any accepted
  simp only [Bool.and_eq_true, beq_iff_eq] at facts
  exact ⟨u, found, facts.1, facts.2, harden_comments found⟩

/-- A file in which a comment stands between an operand and the operator. -/
def gapSource : Source :=
  "contract C \x7b function f(uint a, uint b) \x7b a /* kept */ + b; \x7d \x7d".toList

/-- There the comment is nowhere in the rewritten file. -/
theorem harden_comments_gap : ∃ u, gapSource.front = .ok u ∧
    ∃ x ∈ comments gapSource, ¬ x <:+: (harden gapSource u).text := by
  have accepted : gapSource.front.toOption.any (fun u =>
      (comments gapSource).any fun x => !decide (x <:+: (harden gapSource u).text)) = true := by
    -- Lines are joined as lists of characters before anything is computed with them.
    delta harden rewriteContract librarySource
    simp only [String.toList_append]
    decide +kernel
  obtain ⟨u, found, facts⟩ := exists_of_any accepted
  obtain ⟨x, member, missing⟩ := List.any_eq_true.1 facts
  exact ⟨u, found, x, member, by simpa using missing⟩

end SafeSubset.Checked
