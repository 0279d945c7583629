import SafeSubset.Proofs.Edits.Seams
import SafeSubset.Proofs.Token.Retained

/-! The comments of a text with edits in place. They are those of the source around the
edits and those of the texts, where no text ends in a comment and none makes one of what
stands before it. Words may grow together. -/
namespace SafeSubset.Edits

open Token (Piece Faultless Whole pieces comments commentsFrom keptTexts)

variable {source : Source} {lost : Span → Bool} {fresh : List Source} {as bs : List Piece}
  {es : List Edit} {start stop : Nat}

/-- An edit at places between pieces of the source. Its text has the comments there that are
not lost, and no others but fresh ones. -/
structure Inset (lost : Span → Bool) (fresh : List Source) (source : Source) (e : Edit) : Prop where
  place : ∃ as ds bs, pieces source = as ++ (ds ++ bs) ∧
    Source.byteLength (as.flatMap Piece.chars) = e.1.start ∧
    Source.byteLength ((as ++ ds).flatMap Piece.chars) = e.1.stop ∧
    (∀ p ∈ as.getLast?, ∀ y, p.Ends (e.2 ++ y)) ∧
    (keptTexts lost (commentsFrom e.1.start ds)).Sublist (comments e.2) ∧
    ∀ x ∈ comments e.2, x ∈ ds.filterMap Piece.comment? ∨ x ∈ fresh
  whole : Whole e.2

/-- A source with edits in place has the comments of the source that are not lost, in their
order, and no others but fresh ones. -/
theorem comments_substituted (faultless : Faultless source) (insets : ∀ e ∈ es, Inset lost fresh source e)
    (arranged : Arranged start (es.map Prod.fst) stop) (same : pieces source = as ++ bs)
    (here : Source.byteLength (as.flatMap Piece.chars) = start) (ends : Source.byteLength source = stop) :
    (keptTexts lost (commentsFrom start bs)).Sublist (comments (substituted source stop start es)) ∧
      ∀ x ∈ comments (substituted source stop start es), x ∈ bs.filterMap Piece.comment? ∨ x ∈ fresh := by
  have sound := Token.faultless_iff.1 faultless
  induction es generalizing as bs start with
  | nil =>
      obtain ⟨slice, -, cuts⟩ := pieces_behind same
      have sound : ∀ p ∈ bs, p.Sound := fun p member => sound p (by simp [same, member])
      rw [here, ends] at slice
      rw [substituted, slice, Token.comments_of_pieces sound cuts]
      exact ⟨(Token.Retains.refl lost start bs).kept, fun x member => .inl member⟩
  | cons e es ih =>
      obtain ⟨-⟩ | ⟨from_le, -, forward, rest⟩ := arranged
      obtain ⟨⟨as', ds, bs', same', starts, stops, ends', own, old⟩, whole⟩ := insets e List.mem_cons_self
      obtain ⟨ms, rfl, rfl, slice⟩ := pieces_between same same' (here.trans_le (from_le.trans starts.ge))
      obtain ⟨behind, known⟩ := ih (fun d member => insets d (List.mem_cons_of_mem e member)) rest
        (by rw [same', ← List.append_assoc]) stops
      -- The text is the source up to the edit, the edit's own text, and what follows.
      have cuts : Token.Cuts ms ((ds ++ bs').flatMap Piece.chars ++ []) :=
        (Token.cuts_append.1 (Token.cuts_append.1 (same ▸ Token.cuts_pieces source)).2).1
      have front := Token.comments_of_cuts (fun p member => sound p (by simp [same, member])) cuts
        fun p last => ends' p (List.mem_getLast?_append_of_mem_getLast? last) (substituted source stop e.1.stop es)
      have before := Token.Retains.refl lost start ms
      have first : start + Source.byteLength (ms.flatMap Piece.chars) = e.1.start := by
        rw [← starts, ← here, List.flatMap_append, Source.byteLength_append]
      have second : e.1.start + Source.byteLength (ds.flatMap Piece.chars) = e.1.stop := by
        rw [← stops, List.flatMap_append, Source.byteLength_append, starts]
      rw [here, starts] at slice
      rw [substituted, slice, List.append_assoc, front, whole, Token.commentsFrom_append, first,
        Token.commentsFrom_append, second, Token.keptTexts_append, Token.keptTexts_append]
      refine ⟨before.kept.append (own.append behind), fun x member => ?_⟩
      simp only [List.filterMap_append, List.mem_append] at member ⊢
      rcases member with inside | inside | inside
      · exact .inl (.inl inside)
      · exact (old x inside).imp_left fun here => .inr (.inl here)
      · exact (known x inside).imp_left fun here => .inr (.inr here)

end SafeSubset.Edits
