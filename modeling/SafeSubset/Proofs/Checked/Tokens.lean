import SafeSubset.Proofs.Checked.Rewritten
import SafeSubset.Proofs.Checked.Text
import SafeSubset.Proofs.Edits.Seams
import SafeSubset.Proofs.Grammar.Standing

/-! The tokens of a rewritten file. They are those of the source with the tokens of each
replaced expression exchanged for those of its text, and with those of the library and
of the directives put in, unless a text grows together with a word before it. -/
namespace SafeSubset.Checked

open Edits (Seam substitutedWords)
open Token (Spaced Holds Lexes Piece Faultless Divides Sealed Cuts words width extent core pieces)

variable {source x y z : Source} {d e : Expr Ty} {c : Contract Ty} {o : Nat} {p : Edit}
  {ts us before behind : List Spaced} {tail : List Source} {t : Spaced}

/-- What is replaced and put in, in a file. -/
def fileEdits (source : Source) (u : SourceUnit Ty) : List Edit :=
  if u.contracts.any fun c => isLibraryName c.name.text then []
  else filePatches source true u.contracts

/-- Whether a word or a number ends where an edit starts, and the text of the edit goes
on with it. -/
def Fuses (source : Source) (p : Edit) : Prop :=
  (∃ l ∈ (Token.scan source).lexemes, l.kind.isWord = true ∧ l.span.stop = p.1.start) ∧
    p.2.head?.any Token.isWordRest = true

instance (source : Source) (p : Edit) : Decidable (Fuses source p) :=
  inferInstanceAs (Decidable (_ ∧ _))

/-- The pieces before a token. -/
def piecesBefore (before : List Spaced) (t : Spaced) : List Piece :=
  before.flatMap Spaced.pieces ++ t.gap.map (⟨.trivia, ·⟩)

theorem sound_piecesBefore (before : List Spaced) (t : Spaced) : ∀ p ∈ piecesBefore before t, p.Sound := by
  intro p member
  rcases List.mem_append.1 member with member | member
  · exact Token.sound_pieces before p member
  · obtain ⟨g, -, rfl⟩ := List.mem_map.1 member
    exact .inl rfl

theorem start_piecesBefore (before us : List Spaced) (t : Spaced) :
    Source.byteLength ((piecesBefore before t).flatMap Piece.chars) = (extent (width before) (t :: us)).start := by
  rw [piecesBefore, List.flatMap_append, Source.byteLength_append, Token.flatMap_chars, Token.chars_trivia]
  rfl

/-- Other text may stand before a token if the trivia or the token before it end there
as well. -/
theorem cuts_before (cuts : Cuts (piecesBefore before t) (t.chars ++ x))
    (solid : ∀ d ∈ t.chars.head?, Token.isSpace d = false) (solid' : ∀ d ∈ y.head?, Token.isSpace d = false)
    (last : ∀ init b, before = init ++ [b] → t.gap = [] → b.piece.Cut (t.chars ++ x) → b.piece.Cut y) :
    Cuts (piecesBefore before t) y := by
  have sound := sound_piecesBefore before t
  rcases List.eq_nil_or_concat' t.gap with none | ⟨gap, g, same⟩
  · rcases List.eq_nil_or_concat' before with rfl | ⟨init, b, rfl⟩
    · simp [piecesBefore, none, Cuts]
    · have split : piecesBefore (init ++ [b]) t =
          (init.flatMap Spaced.pieces ++ b.gap.map (⟨.trivia, ·⟩)) ++ [b.piece] := by
        simp [piecesBefore, none, Spaced.pieces, Spaced.piece]
      rw [split] at cuts sound ⊢
      refine Token.cuts_last (fun p member => sound p (List.mem_append_left _ member)) cuts ?_
      exact last init b rfl none (Token.cuts_append.1 cuts).2.1
  · have split : piecesBefore before t =
        (before.flatMap Spaced.pieces ++ gap.map (⟨.trivia, ·⟩)) ++ [⟨.trivia, g⟩] := by
      simp [piecesBefore, same]
    rw [split] at cuts sound ⊢
    refine Token.cuts_last (fun p member => sound p (List.mem_append_left _ member)) cuts ?_
    obtain ⟨c, cs, chars, found⟩ := (Token.cuts_append.1 cuts).2.1
    obtain ⟨d, ds, first⟩ := List.exists_cons_of_ne_nil t.chars_ne
    rw [first] at solid found
    exact ⟨c, cs, chars, Token.first_trivia_congr rfl (solid d rfl) solid' found⟩

theorem divides_before {text : Source} (cuts : ∀ y, Cuts (piecesBefore before t) (text ++ y)) :
    ∀ qs ms, piecesBefore before t = qs ++ ms → ∀ y, Divides ms (text ++ y) := by
  intro qs ms same y
  refine Token.divides_of_cuts (fun p member => ?_) (Token.cuts_append.1 (same ▸ cuts y)).2
  exact sound_piecesBefore before t p (same ▸ List.mem_append_right qs member)

section Texts

theorem sealed_lines {s t : String} (first : Sealed s.toList) (second : Sealed t.toList) :
    Sealed (s ++ t).toList := by
  rw [String.toList_append]
  exact first.append second

theorem head_lines {s : String} {c : Char} (h : s.toList.head? = some c) (t : String) :
    (s ++ t).toList.head? = some c := by
  rw [String.toList_append, List.head?_append, h]
  rfl

/-- The library is told apart from what follows it, since each of its lines is. -/
theorem sealed_library : Sealed librarySource := by
  iterate 22 refine sealed_lines ?_ (Token.sealed_line ⟨_, rfl, by decide +kernel⟩)
  exact Token.sealed_line ⟨_, rfl, by decide +kernel⟩

theorem library_newline : ∃ rest, librarySource = '\n' :: rest := by
  refine List.head?_eq_some_iff.1 ?_
  iterate 22 refine head_lines ?_ _
  decide +kernel

theorem sealed_directive : Sealed directiveSource := by
  obtain ⟨x, text, faultless, behind⟩ : ∃ x, "using SafeMath for uint256;\n    " = String.ofList x ∧
      (Token.scan (x.take 27)).faults.isEmpty ∧ x.drop 27 = "\n    ".toList := ⟨_, rfl, by decide +kernel⟩
  have same : directiveSource = x := (congrArg String.toList text).trans String.toList_ofList
  rw [same]
  refine Token.sealed_of_newline 27 (List.isEmpty_iff.1 faultless) (by rw [behind]; decide +kernel) ?_
  rw [behind]
  exact List.all_iff_forall_prop.1 (by decide +kernel)

theorem directive_word : ∃ rest, directiveSource = 'u' :: rest :=
  List.head?_eq_some_iff.1 (by decide +kernel)

end Texts

section Places

variable (cut : pieces source = ts.flatMap Spaced.pieces ++ tail.map (⟨.trivia, ·⟩))

include cut

/-- The token before a place and those behind it are cut out of the source there. -/
theorem cuts_here (among : ts = before ++ (t :: us)) :
    ∃ x, Cuts (piecesBefore before t) (t.chars ++ x) ∧ t.piece.Cut x ∧
      (∀ d ∈ t.chars.head?, Token.isSpace d = false) := by
  have whole := Token.cuts_pieces source
  have split : ts.flatMap Spaced.pieces ++ tail.map (⟨.trivia, ·⟩) =
      piecesBefore before t ++ t.piece :: (us.flatMap Spaced.pieces ++ tail.map (⟨.trivia, ·⟩)) := by
    simp [among, piecesBefore, Spaced.pieces, Spaced.piece]
  rw [cut, split, Token.cuts_append] at whole
  obtain ⟨front, here, -⟩ := whole
  refine ⟨_, by simpa [Spaced.piece] using front, here, ?_⟩
  obtain ⟨c, cs, chars, found⟩ := here
  have chars : t.chars = c :: cs := chars
  intro d head
  rw [chars] at head
  obtain rfl := Option.some.inj head
  exact Token.solid_of_token found

/-- Some tokens among those of the source are pieces of it. -/
theorem place_of_tokens (among : ts = before ++ (t :: us) ++ behind) :
    ∃ bs, pieces source = piecesBefore before t ++ (t.piece :: us.flatMap Spaced.pieces ++ bs) ∧
      Source.byteLength ((piecesBefore before t).flatMap Piece.chars) = (extent (width before) (t :: us)).start ∧
      Source.byteLength ((piecesBefore before t ++ t.piece :: us.flatMap Spaced.pieces).flatMap Piece.chars) =
        (extent (width before) (t :: us)).stop := by
  refine ⟨behind.flatMap Spaced.pieces ++ tail.map (⟨.trivia, ·⟩), ?_, start_piecesBefore before us t, ?_⟩
  · rw [cut, among]
    simp [piecesBefore, Spaced.pieces, Spaced.piece]
  · have tokens : piecesBefore before t ++ t.piece :: us.flatMap Spaced.pieces =
        (before ++ t :: us).flatMap Spaced.pieces := by
      simp [piecesBefore, Spaced.pieces, Spaced.piece]
    rw [tokens, Token.flatMap_chars, Token.textOf_append, Source.byteLength_append]
    rfl

/-- The place before a token falls between pieces. -/
theorem place_of_point (among : ts = before ++ (t :: (us ++ behind))) :
    ∃ bs, pieces source = piecesBefore before t ++ ([] ++ bs) ∧
      Source.byteLength ((piecesBefore before t).flatMap Piece.chars) = (extent (width before) (t :: us)).start ∧
      Source.byteLength ((piecesBefore before t ++ []).flatMap Piece.chars) =
        (extent (width before) (t :: us)).start := by
  obtain ⟨bs, same, starts, -⟩ := place_of_tokens cut (show ts = before ++ (t :: us) ++ behind by simp [among])
  exact ⟨_, same, starts, by rw [List.append_nil, starts]⟩

/-- Text that is put in before a token. -/
theorem seam_of_point {text : Source} (among : ts = before ++ (t :: (us ++ behind)))
    (divides : ∀ qs ms, piecesBefore before t = qs ++ ms → ∀ y, Divides ms (text ++ y))
    (sealed : Sealed text) : Seam source (.point (extent (width before) (t :: us)).start, text) := by
  obtain ⟨bs, same, starts, stops⟩ := place_of_point cut among
  exact ⟨⟨_, _, bs, same, starts, stops, divides⟩, sealed⟩

/-- Text that stands in the place of some tokens. -/
theorem seam_of_tokens {text : Source} (among : ts = before ++ (t :: us) ++ behind)
    (divides : ∀ qs ms, piecesBefore before t = qs ++ ms → ∀ y, Divides ms (text ++ y))
    (sealed : Sealed text) : Seam source (extent (width before) (t :: us), text) := by
  obtain ⟨bs, same, starts, stops⟩ := place_of_tokens cut among
  exact ⟨⟨_, _, bs, same, starts, stops, divides⟩, sealed⟩

/-- Tokens among those of the source are cut out of their text. -/
theorem lexes_among (among : ts = before ++ us ++ behind) : ∃ x, Lexes us x := by
  have whole := Token.cuts_pieces source
  rw [cut, Token.cuts_append] at whole
  have lexes : Lexes ts _ := whole.1
  rw [among, Token.lexes_append, Token.lexes_append] at lexes
  exact ⟨_, lexes.1.2⟩

/-- A text fuses with the word directly before it if it starts with a character of a word. -/
theorem fuses_of_word {init : List Spaced} {b : Spaced} {text : Source} {a : Char}
    (among : ts = init ++ [b] ++ (t :: us) ++ behind) (none : t.gap = []) (word : b.kind.isWord = true)
    (first : text.head? = some a) (rest : Token.isWordRest a = true) (stop : Nat) :
    Fuses source (⟨(extent (width (init ++ [b])) (t :: us)).start, stop⟩, text) := by
  refine ⟨⟨b.lexeme (width init), ?_, word, ?_⟩, by simp [first, rest]⟩
  · rw [(Token.scan_of_pieces cut).1, among]
    simp [Token.lexemes_append, Token.lexemes]
  · simp [extent, Spaced.lexeme, Spaced.text, Spaced.gapText, none, Token.width_cons, Nat.add_assoc]

omit cut in
/-- The text for an expression starts as the expression does, or with a bracket or a conversion. -/
theorem head_outText (located : d.Located o (t :: us)) (holds : Holds source o (t :: us)) (x y : Source) :
    (outText source d ++ y).head? = (t.chars ++ x).head? ∨
      (outText source d ++ y).head? = some '(' ∨ (outText source d ++ y).head? = some 'u' := by
  obtain ⟨ts', rewrites⟩ : ∃ ts', Rewrites source False o d (t :: us) ts' :=
    exists_rewrites nofun located holds
  have fronts := rewrites.fronts.bare.head x y
  obtain ⟨c, cs, chars⟩ := List.exists_cons_of_ne_nil t.chars_ne
  rw [textOf_bare, ← rewrites.text located holds, textOf_bare, core, chars] at fronts
  rw [chars]
  exact fronts.imp id And.right

/-- The text for a replaced expression is cut into the tokens that stand for it, whatever
follows. -/
theorem tokens_of_operation (fires : (operation? d).isSome = true) (here : Holds source (width before) us)
    (among : ts = before ++ us ++ behind) (located : d.Located (width before) us) :
    ∃ ts', Rewrites source False (width before) d us ts' ∧
      Token.textOf (Token.regap [] ts') = outText source d ∧ ∀ y, Lexes (Token.regap [] ts') y := by
  obtain ⟨z, lexes⟩ := lexes_among cut among
  obtain ⟨ts', rewrites⟩ : ∃ ts', Rewrites source False (width before) d us ts' :=
    exists_rewrites nofun located here
  refine ⟨ts', rewrites, ?_, fun y => (rewrites.final fires z lexes y).regap trivial⟩
  rw [textOf_bare, rewrites.text located here]

/-- A replaced expression whose text does not go on with the word before it. -/
theorem seam_of_operation (fires : (operation? d).isSome = true) (holds : Holds source 0 ts)
    (among : ts = before ++ us ++ behind) (located : d.Located (width before) us)
    (apart : ¬ Fuses source (d.span, outText source d)) : Seam source (d.span, outText source d) := by
  obtain ⟨some, place⟩ := located.span
  obtain ⟨t, us, rfl⟩ := List.exists_cons_of_ne_nil some
  have here : Holds source (width before) (t :: us) := by
    rw [among, List.append_assoc] at holds
    simpa using holds.right.left
  obtain ⟨x, cuts, -, solid⟩ := cuts_here cut (among.trans (List.append_assoc _ _ _))
  obtain ⟨ts', rewrites, text, bare⟩ := tokens_of_operation cut fires here among located
  have wide : outText source d ≠ [] := by
    obtain ⟨_, _, t', us', -, rfl, -⟩ := rewrites.fronts
    simp [← text, Token.textOf, Token.regap, Spaced.text, t'.chars_ne]
  rw [place]
  refine seam_of_tokens cut among (divides_before fun y => ?_) ?_
  · have head := head_outText located here x y
    refine cuts_before cuts solid ?_ fun init b ends none own => ?_
    · intro a first
      rcases head with same | opens | word
      · obtain ⟨c, cs, chars⟩ := List.exists_cons_of_ne_nil t.chars_ne
        rw [same, chars] at first
        exact solid a (by rw [chars]; exact first)
      · obtain rfl := Option.some.inj (opens.symm.trans first)
        decide
      · obtain rfl := Option.some.inj (word.symm.trans first)
        decide
    · refine Token.Piece.Cut.congr own (head.imp id (Or.imp id fun word a first => ?_)) fun word a first => ?_
      · obtain rfl := Option.some.inj (word.symm.trans first)
        decide
      · rw [← Bool.not_eq_true]
        intro rest
        rw [place, ends] at apart
        have own : (outText source d).head? = Option.some a := by
          obtain ⟨c, cs, chars⟩ := List.exists_cons_of_ne_nil wide
          rw [chars] at first ⊢
          exact first
        exact apart (fuses_of_word cut (ends ▸ among) none word own rest _)
  · rw [← text]
    exact Token.sealed_of_lexes bare

/-- The library before a contract. -/
theorem seam_of_library (among : ts = before ++ us ++ behind) (placed : c.Placed (width before) us) :
    Seam source (.point c.span.start, librarySource) := by
  obtain ⟨t, us, rfl⟩ := List.exists_cons_of_ne_nil placed.some
  rw [placed.span]
  have among : ts = before ++ (t :: (us ++ behind)) := by simp [among]
  obtain ⟨x, cuts, -, -⟩ := cuts_here cut among
  refine seam_of_point cut among (fun qs ms same y => ?_) sealed_library
  obtain ⟨rest, newline⟩ := library_newline
  rw [newline]
  refine Token.divides_newline (fun p member => ?_) (Token.cuts_append.1 (same ▸ cuts)).2 _
  exact sound_piecesBefore before t p (same ▸ List.mem_append_right qs member)

/-- Where the directive goes there is a token, the first one behind the opening brace. -/
theorem entry_of_placed (among : ts = before ++ us ++ behind) (placed : c.Placed (width before) us) :
    ∃ init a t vs, us = init ++ a :: t :: vs ∧ a.kind = .mark .openBrace ∧
      c.entry = (extent (width (before ++ (init ++ [a]))) (t :: vs)).start := by
  obtain ⟨-, span, _, vs, rfl, ⟨init, a, rfl, opens⟩, -, -, -, inside, entry⟩ := placed
  simp only [Token.width_append before]
  rcases entry with ⟨none, kinds⟩ | same
  · obtain ⟨t, _, rfl, kind, rest⟩ := List.map_eq_cons_iff.1 kinds
    obtain rfl := List.map_eq_nil_iff.1 rest
    refine ⟨init, a, t, [], by simp, opens, ?_⟩
    have split : ts = before ++ (init ++ [a]) ++ (t :: behind) := by simp [among]
    obtain ⟨x, -, ⟨d, ds, chars, found⟩, -⟩ := cuts_here cut split
    have chars : t.chars = d :: ds := chars
    have own : t.piece.kind = .token (.mark .closeBrace) := congrArg _ kind
    rw [own] at found
    have wide : Source.byteLength t.chars = 1 := by
      rw [chars, ← Token.text_of_mark found]
      rfl
    have stop := congrArg Span.stop span
    simp only [Contract.entry, none]
    rw [stop]
    simp [extent, Token.width_cons, Spaced.text, wide]
    omega
  · cases vs with
    | nil =>
        rw [span, same] at inside
        simp [extent] at inside
    | cons t vs => exact ⟨init, a, t, vs, by simp, opens, same⟩

/-- The directive behind the opening brace of a contract. -/
theorem seam_of_directive (among : ts = before ++ us ++ behind) (placed : c.Placed (width before) us) :
    Seam source (.point c.entry, directiveSource) := by
  obtain ⟨init, a, t, vs, rfl, opens, place⟩ := entry_of_placed cut among placed
  have among : ts = (before ++ (init ++ [a])) ++ (t :: (vs ++ behind)) := by simp [among]
  obtain ⟨x, cuts, -, solid⟩ := cuts_here cut among
  rw [place]
  refine seam_of_point cut among (divides_before fun y => ?_) sealed_directive
  obtain ⟨rest, first⟩ := directive_word
  rw [first]
  refine cuts_before cuts solid ?_ fun init' b ends none own => ?_
  · intro d head
    obtain rfl := Option.some.inj head
    decide
  · rw [← List.append_assoc] at ends
    obtain ⟨-, same⟩ := List.append_inj' ends rfl
    obtain rfl := List.head_eq_of_cons_eq same
    refine Token.Piece.Cut.congr own (.inr (.inr fun d head => ?_)) fun word => ?_
    · obtain rfl := Option.some.inj head
      decide
    · rw [opens] at word
      cases word

end Places

/-- Each edit in an expression is about a checked operation in it. -/
theorem mem_patches (member : p ∈ patches source e) :
    ∃ d ∈ e.subexpressions, (operation? d).isSome = true ∧ p = (d.span, outText source d) := by
  induction e using Expr.induction_children with
  | node e ih =>
      cases fires : operation? e with
      | some op =>
          rw [patches_of_some fires, List.mem_singleton] at member
          exact ⟨e, e.self_mem_subexpressions, by simp [fires], member⟩
      | none =>
          rw [patches_of_none fires] at member
          obtain ⟨c, child, inside⟩ := List.mem_flatMap.1 member
          obtain ⟨d, deep, replaced, same⟩ := ih c child inside
          exact ⟨d, Expr.mem_subexpressions.2 (.inr ⟨c, child, deep⟩), replaced, same⟩

theorem mem_contractPatches {first : Bool} (member : p ∈ contractPatches source first c) :
    p = (.point c.span.start, librarySource) ∨ p = (.point c.entry, directiveSource) ∨
      ∃ e ∈ c.roots, p ∈ patches source e := by
  have inside : ∀ es : List (Expr Ty), (∀ e ∈ es, e ∈ c.roots) → p ∈ es.flatMap (patches source) →
      ∃ e ∈ c.roots, p ∈ patches source e := by
    intro es roots inside
    obtain ⟨e, here, edit⟩ := List.mem_flatMap.1 inside
    exact ⟨e, roots e here, edit⟩
  rw [contractPatches, List.append_assoc] at member
  rcases List.mem_append.1 member with library | member
  · split at library
    · exact .inl (List.mem_singleton.1 library)
    · cases library
  rcases List.mem_append.1 member with bases | member
  · exact .inr (.inr (inside _ (fun e here => List.mem_append_left _ here) bases))
  rcases List.mem_cons.1 member with directive | members
  · exact .inr (.inl directive)
  · exact .inr (.inr (inside _ (fun e here => List.mem_append_right _ here) members))

/-- What the edits of a file are. -/
theorem mem_filePatches {first : Bool} {cs : List (Contract Ty)} (member : p ∈ filePatches source first cs) :
    ∃ c ∈ cs, changes c = true ∧ (p = (.point c.span.start, librarySource) ∨
      p = (.point c.entry, directiveSource) ∨ ∃ e ∈ c.roots, p ∈ patches source e) := by
  induction cs generalizing first with
  | nil => cases member
  | cons c cs ih =>
      rw [filePatches_cons] at member
      split at member
      · next changed =>
        rcases List.mem_append.1 member with member | member
        · exact ⟨c, List.mem_cons_self, changed, mem_contractPatches member⟩
        · obtain ⟨d, later, rest⟩ := ih member
          exact ⟨d, List.mem_cons_of_mem c later, rest⟩
      · obtain ⟨d, later, rest⟩ := ih member
        exact ⟨d, List.mem_cons_of_mem c later, rest⟩

/-- What an edit of a file is about, and the tokens `ts` of the file that it stands at. -/
inductive EditOf (source : Source) (u : SourceUnit Ty) (ts : List Spaced) : Edit → Prop where
  | library {c : Contract Ty} {before us behind : List Spaced} (among : ts = before ++ us ++ behind)
      (placed : c.Placed (width before) us) : EditOf source u ts (.point c.span.start, librarySource)
  | directive {c : Contract Ty} {before us behind : List Spaced} (among : ts = before ++ us ++ behind)
      (placed : c.Placed (width before) us) : EditOf source u ts (.point c.entry, directiveSource)
  | operation {c : Contract Ty} {e d : Expr Ty} {before us behind : List Spaced}
      (undefined : (u.contracts.any fun c => isLibraryName c.name.text) = false) (inside : c ∈ u.contracts)
      (changed : changes c = true) (root : e ∈ c.roots) (deep : d ∈ e.subexpressions)
      (edit : (d.span, outText source d) ∈ patches source e) (fires : (operation? d).isSome = true)
      (among : ts = before ++ us ++ behind) (located : d.Located (width before) us) :
      EditOf source u ts (d.span, outText source d)

theorem editOf_of_mem {u : SourceUnit Ty} (laid : Laid Contract.Placed 0 u.contracts ts)
    (member : p ∈ fileEdits source u) : EditOf source u ts p := by
  unfold fileEdits at member
  split at member
  · cases member
  next undefined =>
  obtain ⟨c, inside, changed, kinds⟩ := mem_filePatches member
  obtain ⟨before, us, behind, among, placed⟩ := laid.mem inside
  rw [Nat.zero_add] at placed
  rcases kinds with rfl | rfl | ⟨e, root, edit⟩
  · exact .library among placed
  · exact .directive among placed
  · obtain ⟨d, deep, fires, rfl⟩ := mem_patches edit
    obtain ⟨before', vs, behind', rfl, top⟩ := placed.roots.mem root
    obtain ⟨before'', ws, behind'', rfl, located⟩ := top.mem deep
    have among' : ts = before ++ before' ++ before'' ++ ws ++ (behind'' ++ behind' ++ behind) := by
      simp [among]
    rw [← Token.width_append, ← Token.width_append] at located
    exact .operation (Bool.eq_false_iff.2 undefined) inside changed root deep edit fires among' located

/-- Every edit of an accepted file whose text goes on with no word is told apart from what
stands around it. -/
theorem seam_of_edit {u : SourceUnit Ty} (accepted : source.front = .ok u)
    (apart : ∀ c ∈ u.contracts, changes c = true → ∀ e ∈ c.roots, ∀ p ∈ patches source e, ¬ Fuses source p) :
    ∀ p ∈ fileEdits source u, Seam source p := by
  obtain ⟨ts, tail, cut, holds, laid⟩ := Source.front_placed accepted
  intro p member
  cases editOf_of_mem laid member with
  | library among placed => exact seam_of_library cut among placed
  | directive among placed => exact seam_of_directive cut among placed
  | operation undefined inside changed root deep edit fires among located =>
      exact seam_of_operation cut fires holds among located (apart _ inside changed _ root _ edit)

/-- The edits of an accepted file follow one another. -/
theorem arranged_fileEdits {u : SourceUnit Ty} (accepted : source.front = .ok u) :
    Arranged 0 ((fileEdits source u).map Prod.fst) (Source.byteLength source) := by
  unfold fileEdits
  split
  · exact .nil (Nat.zero_le _)
  · obtain ⟨parts, ordered⟩ := ordered_contracts accepted
    exact arranged_filePatches parts ordered true

/-- The text of a rewritten file is the source with its edits in place. -/
theorem harden_edits {u : SourceUnit Ty} (accepted : source.front = .ok u) :
    (harden source u).text =
      Edits.substituted source (Source.byteLength source) 0 (fileEdits source u) := by
  unfold fileEdits
  split
  · next defined =>
    simp only [harden, defined, if_true]
    exact (Source.slice_all source).symm
  · next undefined =>
    rw [harden_text accepted (by simpa using undefined)]
    rfl

/-- Rewriting an accepted file makes no fault, and exchanges and puts in tokens where it
exchanges and puts in text, if no text of a replaced expression goes on with a word. -/
theorem harden_words {u : SourceUnit Ty} (accepted : source.front = .ok u)
    (apart : ∀ c ∈ u.contracts, changes c = true → ∀ e ∈ c.roots, ∀ p ∈ patches source e, ¬ Fuses source p) :
    Faultless (harden source u).text ∧ words (harden source u).text =
      substitutedWords source (Source.byteLength source) 0 (fileEdits source u) := by
  have seams := seam_of_edit accepted apart
  obtain ⟨-, -, faultless, -⟩ := Source.front_annotate accepted
  rw [harden_edits accepted]
  have whole : pieces source = [] ++ pieces source := rfl
  exact (Edits.words_substituted faultless seams (arranged_fileEdits accepted) whole rfl rfl).symm

/-- A file in which a returned sum starts with a conversion behind a space. -/
def conversionSource : Source :=
  "contract C \x7b function f(uint a) public returns (uint) \x7b return (-1)+a; \x7d \x7d".toList

theorem harden_words_conversion : ∃ u, conversionSource.front = .ok u ∧ u.contracts.any changes = true ∧
    (∀ c ∈ u.contracts, changes c = true → ∀ e ∈ c.roots, ∀ p ∈ patches conversionSource e,
      ¬ Fuses conversionSource p) ∧
    Faultless (harden conversionSource u).text ∧ words (harden conversionSource u).text =
      substitutedWords conversionSource (Source.byteLength conversionSource) 0 (fileEdits conversionSource u) := by
  have accepted : conversionSource.front.toOption.any (fun u => u.contracts.any changes &&
      decide (∀ c ∈ u.contracts, changes c = true →
        ∀ e ∈ c.roots, ∀ p ∈ patches conversionSource e, ¬ Fuses conversionSource p)) = true := by
    decide +kernel
  obtain ⟨u, found, holds⟩ := exists_of_any accepted
  simp only [Bool.and_eq_true, decide_eq_true_eq] at holds
  exact ⟨u, found, holds.1, holds.2, harden_words found holds.2⟩

/-- The same sum directly behind the keyword. -/
def fusedSource : Source :=
  "contract C \x7b function f(uint a) \x7b return-1+a; \x7d \x7d".toList

/-- There the keyword and the conversion become one word. -/
theorem harden_words_fused : ∃ u, fusedSource.front = .ok u ∧ words (harden fusedSource u).text ≠
    substitutedWords fusedSource (Source.byteLength fusedSource) 0 (fileEdits fusedSource u) := by
  obtain ⟨x, text, accepted⟩ : ∃ x,
      "contract C \x7b function f(uint a) \x7b return-1+a; \x7d \x7d" = String.ofList x ∧
      (Source.front x).toOption.any (fun u => u.contracts.length == 1 && u.contracts.all fun c =>
        changes c && !isLibraryName c.name.text && c.span.start == 0 &&
          (words (Edits.substituted x (Source.byteLength x) 0 (contractPatches x false c))).length !=
            (substitutedWords x (Source.byteLength x) 0 (contractPatches x false c)).length) = true :=
    ⟨_, rfl, by decide +kernel⟩
  obtain rfl : fusedSource = x := (congrArg String.toList text).trans String.toList_ofList
  obtain ⟨u, found, holds⟩ := exists_of_any accepted
  rw [Bool.and_eq_true, beq_iff_eq] at holds
  obtain ⟨c, only⟩ := List.length_eq_one_iff.1 holds.1
  simp only [only, List.all_cons, List.all_nil, Bool.and_true, Bool.and_eq_true, Bool.not_eq_true',
    beq_iff_eq, bne_iff_ne] at holds
  obtain ⟨-, ⟨⟨changed, undefined⟩, start⟩, differs⟩ := holds
  have edits : fileEdits fusedSource u =
      (.point 0, librarySource) :: contractPatches fusedSource false c := by
    simp [fileEdits, only, undefined, filePatches_cons, changed, filePatches, contractPatches, start]
  refine ⟨u, found, ?_⟩
  rw [harden_edits found, edits]
  exact fun same => differs (congrArg List.length ((Edits.words_front sealed_library _).1 same))

end SafeSubset.Checked
