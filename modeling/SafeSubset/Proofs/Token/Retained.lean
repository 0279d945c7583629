import SafeSubset.Proofs.Token.Comments

/-! What becomes of the comments of some pieces where other text takes their place. Each
comment whose place is not given up is among those of the text, in the order of before,
and the text has no comment that was not there. -/
namespace SafeSubset.Token

variable {lost : Span → Bool} {o : Nat} {ps qs : List Piece} {ts us ms : List Spaced} {xs ys : List Source}

/-- A comment of a source. -/
structure Comment where
  span : Span
  text : Source

def Comment.ofPiece? : Piece × Span → Option Comment
  | (p, s) => p.comment?.map (⟨s, ·⟩)

/-- The comments among pieces that start at `o`. -/
def commentsFrom (o : Nat) (ps : List Piece) : List Comment := (placed o ps).filterMap Comment.ofPiece?

/-- The comments of a source and their places. -/
def commentsIn (source : Source) : List Comment := commentsFrom 0 (pieces source)

/-- The texts of the comments whose places are not lost. -/
def keptTexts (lost : Span → Bool) (cs : List Comment) : List Source :=
  (cs.filter fun c => !lost c.span).map Comment.text

theorem commentsFrom_append (o : Nat) (ps qs : List Piece) :
    commentsFrom o (ps ++ qs) =
      commentsFrom o ps ++ commentsFrom (o + Source.byteLength (ps.flatMap Piece.chars)) qs := by
  rw [commentsFrom, placed_append, List.filterMap_append]
  rfl

theorem texts_commentsFrom (o : Nat) (ps : List Piece) :
    (commentsFrom o ps).map Comment.text = ps.filterMap Piece.comment? := by
  induction ps generalizing o with
  | nil => rfl
  | cons p ps ih =>
      rw [commentsFrom, placed, List.filterMap_cons, List.filterMap_cons, Comment.ofPiece?]
      cases p.comment? with
      | none => exact ih _
      | some text => exact congrArg (text :: ·) (ih _)

theorem texts_commentsIn {source : Source} (faultless : Faultless source) :
    (commentsIn source).map Comment.text = comments source :=
  (texts_commentsFrom 0 _).trans (comments_eq faultless).symm

/-- A comment lies among the pieces. -/
theorem within_commentsFrom {c : Comment} (member : c ∈ commentsFrom o ps) :
    o ≤ c.span.start ∧ c.span.stop ≤ o + Source.byteLength (ps.flatMap Piece.chars) := by
  induction ps generalizing o with
  | nil => cases member
  | cons p ps ih =>
      have split : commentsFrom o (p :: ps) =
          commentsFrom o [p] ++ commentsFrom (o + Source.byteLength p.chars) ps := by
        simpa using commentsFrom_append o [p] ps
      rw [List.flatMap_cons, Source.byteLength_append]
      rcases List.mem_append.1 (split ▸ member) with own | later
      · obtain ⟨text, -, rfl⟩ : ∃ text, p.comment? = some text ∧
            ⟨⟨o, o + Source.byteLength p.chars⟩, text⟩ = c := by
          simpa [commentsFrom, placed, Comment.ofPiece?] using own
        exact ⟨Nat.le_refl _, by simp only; omega⟩
      · have := ih later
        omega

theorem keptTexts_append (as bs : List Comment) :
    keptTexts lost (as ++ bs) = keptTexts lost as ++ keptTexts lost bs := by
  simp [keptTexts]

/-- The texts `xs` are those of what has become of the comments of the pieces `ps`. -/
structure Retains (lost : Span → Bool) (o : Nat) (ps : List Piece) (xs : List Source) : Prop where
  kept : (keptTexts lost (commentsFrom o ps)).Sublist xs
  old : xs ⊆ ps.filterMap Piece.comment?

namespace Retains

theorem refl (lost : Span → Bool) (o : Nat) (ps : List Piece) :
    Retains lost o ps (ps.filterMap Piece.comment?) := by
  refine ⟨?_, List.Subset.refl _⟩
  rw [← texts_commentsFrom o ps]
  exact List.filter_sublist.map _

theorem append (first : Retains lost o ps xs)
    (second : Retains lost (o + Source.byteLength (ps.flatMap Piece.chars)) qs ys) :
    Retains lost o (ps ++ qs) (xs ++ ys) where
  kept := by
    rw [commentsFrom_append, keptTexts_append]
    exact first.kept.append second.kept
  old := by
    rw [List.filterMap_append]
    exact List.append_subset.2
      ⟨List.subset_append_of_subset_left _ first.old, List.subset_append_of_subset_right _ second.old⟩

/-- Nothing remains of pieces whose places are lost. -/
theorem nothing (all : ∀ s : Span, o ≤ s.start →
      s.stop ≤ o + Source.byteLength (ps.flatMap Piece.chars) → lost s = true) :
    Retains lost o ps [] := by
  refine ⟨?_, List.nil_subset _⟩
  have none : (commentsFrom o ps).filter (fun c => !lost c.span) = [] := by
    refine List.filter_eq_nil_iff.2 fun c member => ?_
    obtain ⟨starts, stops⟩ := within_commentsFrom member
    simp [all c.span starts stops]
  rw [keptTexts, none]
  exact List.Sublist.refl _

/-- Comments of the pieces may be written again. -/
theorem again (h : Retains lost o ps xs) (old : ys ⊆ ps.filterMap Piece.comment?) :
    Retains lost o ps (ys ++ xs) :=
  ⟨h.kept.trans (List.sublist_append_right ys xs), List.append_subset.2 ⟨old, h.old⟩⟩

end Retains

section Tokens

/-- The comments before and between some tokens. -/
def commentsOf (ts : List Spaced) : List Source := (ts.flatMap Spaced.pieces).filterMap Piece.comment?

theorem commentsOf_append (ts us : List Spaced) : commentsOf (ts ++ us) = commentsOf ts ++ commentsOf us := by
  simp [commentsOf]

/-- The comments before the first token, and those from it on. -/
theorem commentsOf_cons (t : Spaced) (ts : List Spaced) :
    commentsOf (t :: ts) = (t.gap.map (⟨.trivia, ·⟩)).filterMap Piece.comment? ++ commentsOf ts := by
  rw [commentsOf, List.flatMap_cons, Spaced.pieces, List.append_assoc, List.filterMap_append,
    List.singleton_append, List.filterMap_cons_none rfl]
  rfl

theorem commentsOf_regap (gap : List Source) (some : ts ≠ []) :
    commentsOf (regap gap ts) =
      (gap.map (⟨.trivia, ·⟩)).filterMap Piece.comment? ++ commentsOf (regap [] ts) := by
  cases ts with
  | nil => contradiction
  | cons t ts => simp [regap, commentsOf_cons]

/-- Where some tokens end, from the first one on. -/
theorem extent_start_regap (o : Nat) (some : ts ≠ []) :
    (extent o ts).start + width (regap [] ts) = o + width ts := by
  cases ts with
  | nil => contradiction
  | cons t ts => simp [extent, regap, width_cons, Spaced.text, Spaced.gapText, Nat.add_assoc]

namespace Retains

theorem tokens (first : Retains lost o (ts.flatMap Spaced.pieces) xs)
    (second : Retains lost (o + width ts) (us.flatMap Spaced.pieces) ys) :
    Retains lost o ((ts ++ us).flatMap Spaced.pieces) (xs ++ ys) := by
  rw [List.flatMap_append]
  exact first.append (by rwa [flatMap_chars])

/-- The same with the trivia before the first token left out. -/
theorem tokens_bare (some : ts ≠ [])
    (first : Retains lost (extent o ts).start ((regap [] ts).flatMap Spaced.pieces) xs)
    (second : Retains lost (o + width ts) (us.flatMap Spaced.pieces) ys) :
    Retains lost (extent o ts).start ((regap [] (ts ++ us)).flatMap Spaced.pieces) (xs ++ ys) := by
  rw [regap_append [] some]
  exact first.tokens (by rwa [extent_start_regap o some])

/-- The trivia before the first token stay as they are. -/
theorem behind_gap {loose : Prop} {ts' : List Spaced} (fronts : Fronts loose ts ts')
    (h : Retains lost (extent o ts).start ((regap [] ts).flatMap Spaced.pieces) (commentsOf (regap [] ts'))) :
    Retains lost o (ts.flatMap Spaced.pieces) (commentsOf ts') := by
  obtain ⟨t, us, t', us', rfl, rfl, gap, -⟩ := fronts
  have front := refl lost o (t.gap.map (⟨.trivia, ·⟩))
  have pieces : (t :: us).flatMap Spaced.pieces =
      t.gap.map (⟨.trivia, ·⟩) ++ (regap [] (t :: us)).flatMap Spaced.pieces := by
    simp [Spaced.pieces, regap]
  have texts : commentsOf (t' :: us') =
      (t.gap.map (⟨.trivia, ·⟩)).filterMap Piece.comment? ++ commentsOf (regap [] (t' :: us')) := by
    simp [commentsOf_cons, regap, gap]
  rw [pieces, texts]
  exact front.append (by rwa [chars_trivia])

/-- Nothing remains between some tokens and others, with the trivia before those. -/
theorem around (someLeft : ts ≠ []) (someRight : us ≠ [])
    (left : Retains lost (extent o ts).start ((regap [] ts).flatMap Spaced.pieces) xs)
    (right : Retains lost (extent (o + width ts + width ms) us).start ((regap [] us).flatMap Spaced.pieces) ys)
    (between : ∀ s, o + width ts ≤ s.start → s.stop ≤ (extent (o + width ts + width ms) us).start →
      lost s = true) :
    Retains lost (extent o (ts ++ (ms ++ us))).start ((regap [] (ts ++ (ms ++ us))).flatMap Spaced.pieces)
      (xs ++ ys) := by
  obtain ⟨u, us, rfl⟩ := List.exists_cons_of_ne_nil someRight
  let gap : List Piece := ms.flatMap Spaced.pieces ++ u.gap.map (⟨.trivia, ·⟩)
  have stop : o + width ts + Source.byteLength (gap.flatMap Piece.chars) =
      (extent (o + width ts + width ms) (u :: us)).start := by
    rw [List.flatMap_append, Source.byteLength_append, flatMap_chars, chars_trivia, ← Nat.add_assoc]
    rfl
  have nothing : Retains lost (o + width ts) gap [] := nothing fun s starts stops =>
    between s starts (stops.trans_eq stop)
  have split : (ms ++ u :: us).flatMap Spaced.pieces = gap ++ (regap [] (u :: us)).flatMap Spaced.pieces := by
    simp [gap, Spaced.pieces, regap]
  have rest : Retains lost (o + width ts) ((ms ++ u :: us).flatMap Spaced.pieces) ([] ++ ys) := by
    rw [split]
    exact nothing.append (by rwa [stop])
  rw [extent_append o someLeft]
  exact left.tokens_bare someLeft rest

end Retains
end Tokens
end SafeSubset.Token
