import SafeSubset.Proofs.Checked.Rewoven

/-! The tokens of a call of the library. They write the call, their text is its
text, and they are what the text is cut into, whatever follows. -/
namespace SafeSubset.Checked

open Token (Kind Mark Spaced Lexes Parted Soft Fronts core textOf stops regap commentsOf)

variable {l r t : Expr Ty} {ts rs as : List Spaced} {gap : List Source} {x y : Source}
  {op : Operation}

def markToken (gap : List Source) (m : Mark) : Spaced :=
  ⟨gap, .mark m, m.text.toList, m.text_ne_nil⟩

def uintToken (gap : List Source) : Spaced := ⟨gap, .identifier, "uint256".toList, by decide⟩

def methodToken (op : Operation) : Spaced :=
  ⟨[], .identifier, op.method.toList, by cases op <;> decide⟩

def parenTokens (gap : List Source) (ts : List Spaced) : List Spaced :=
  markToken gap .openParen :: (regap [] ts ++ [markToken [] .closeParen])

def callTokens (rs : List Spaced) (op : Operation) (as : List Spaced) : List Spaced :=
  rs ++ [markToken [] .dot, methodToken op] ++ parenTokens [] as

/-- The trivia before the first token. -/
def gapOf (ts : List Spaced) : List Source := (ts.head?.map Spaced.gap).getD []

/-- The tokens of the left operand `l` as a receiver, of which `ts` are what has
become. -/
def receiverTokens (l : Expr Ty) (ts : List Spaced) : List Spaced :=
  if l.type ≠ .uint256 then uintToken (gapOf ts) :: parenTokens [] ts
  else if Loose l ∧ ¬ Fires l then parenTokens (gapOf ts) ts
  else ts

section Texts

theorem textOf_regap (some : ts ≠ []) : textOf (regap gap ts) = gap.flatten ++ core ts := by
  cases ts with
  | nil => contradiction
  | cons t ts => simp [regap, textOf, Spaced.text, Spaced.gapText, core]

theorem textOf_bare (ts : List Spaced) : textOf (regap [] ts) = core ts := by
  cases ts with
  | nil => rfl
  | cons t ts => simp [regap, textOf, Spaced.text, Spaced.gapText, core]

theorem core_append (some : ts ≠ []) (rs : List Spaced) : core (ts ++ rs) = core ts ++ textOf rs := by
  cases ts with
  | nil => contradiction
  | cons t ts => simp [core]

theorem textOf_parenTokens : textOf (parenTokens [] ts) = '(' :: core ts ++ [')'] := by
  have inner := textOf_bare ts
  simp only [parenTokens, textOf, List.flatMap_cons, List.flatMap_append] at inner ⊢
  simp [inner, Spaced.text, Spaced.gapText, markToken, Mark.text]

theorem core_parenTokens : core (parenTokens gap ts) = '(' :: core ts ++ [')'] := by
  have inner := textOf_bare ts
  simp only [parenTokens, core, textOf, List.flatMap_append] at inner ⊢
  simp [inner, Spaced.text, Spaced.gapText, markToken, Mark.text]

theorem core_callTokens (some : rs ≠ []) :
    core (callTokens rs op as) = callText (core rs) op (core as) := by
  rw [callTokens, List.append_assoc, core_append some, Token.textOf_append, textOf_parenTokens]
  simp [textOf, Spaced.text, Spaced.gapText, markToken, methodToken, Mark.text, callText]

theorem core_receiverTokens :
    core (receiverTokens l ts) = receiverText l (operation? l).isSome (core ts) := by
  rw [← receiving_eq]
  unfold receiverTokens receiving
  split
  · show "uint256".toList ++ textOf (parenTokens [] ts) = _
    rw [textOf_parenTokens]
    rfl
  · split
    · exact core_parenTokens
    · rfl

end Texts

section Comments

theorem commentsOf_parenTokens (gap : List Source) (ts : List Spaced) :
    commentsOf (parenTokens gap ts) =
      (gap.map (⟨.trivia, ·⟩)).filterMap Token.Piece.comment? ++ commentsOf (regap [] ts) := by
  rw [parenTokens, Token.commentsOf_cons, Token.commentsOf_append]
  exact congrArg (_ ++ ·) (List.append_nil _)

/-- A receiver has the comments of the operand. -/
theorem commentsOf_receiverTokens (l : Expr Ty) (ts : List Spaced) :
    commentsOf (regap [] (receiverTokens l ts)) = commentsOf (regap [] ts) := by
  unfold receiverTokens
  split
  · exact commentsOf_parenTokens [] ts
  · split
    · exact commentsOf_parenTokens [] ts
    · rfl

theorem commentsOf_callTokens (some : rs ≠ []) :
    commentsOf (regap [] (callTokens rs op as)) = commentsOf (regap [] rs) ++ commentsOf (regap [] as) := by
  rw [callTokens, List.append_assoc, Token.regap_append [] some, Token.commentsOf_append,
    Token.commentsOf_append, commentsOf_parenTokens]
  rfl

end Comments

section Spelling

theorem spelled_parenTokens (i : Info Ty) (h : t.Spelled ts) :
    (Expr.tuple i [t]).Spelled (parenTokens gap ts) :=
  (h.regap []).parens rfl rfl

theorem spelled_conversion (i j : Info Ty) (h : t.Spelled ts) :
    (Expr.call i (.elementary j .uint256) [t] []).Spelled (uintToken gap :: parenTokens [] ts) := by
  have named : Ty.ofName? (String.ofList "uint256".toList) = some .uint256 := by decide +kernel
  have callee : (Expr.elementary j .uint256).Spelled [uintToken gap] :=
    .leaf ⟨uintToken gap, rfl, .inl ⟨rfl, named⟩⟩ trivial rfl
  exact callee.call rfl (h.regap []) rfl rfl

theorem spelled_receiverTokens (h : t.Spelled ts) :
    (receiverTree l t).Spelled (receiverTokens l ts) := by
  unfold receiverTree receiverTokens
  split
  · exact spelled_conversion _ _ h
  · split
    · exact spelled_parenTokens _ h
    · exact h

theorem spelled_callTokens (i : Info Ty) (receiver : r.Spelled rs) (level : r.level = 0)
    (created : ∀ s p, r.created? ≠ some (.user s p)) (argument : t.Spelled as) :
    (libraryCall i r op.method t).Spelled (callTokens rs op as) := by
  refine Expr.Spelled.call ?_ rfl (argument.regap []) rfl rfl
  exact receiver.member level created rfl rfl String.ofList_toList

end Spelling

section Lexing

/-- Tokens that end before whatever goes on with no token. -/
def Closed (ts : List Spaced) : Prop := ∀ d ∈ stops, ∀ z, Lexes ts (d :: z)

/-- Trivia that end before whatever is no white space. -/
def Ended (gap : List Source) : Prop := ∀ c z, Token.isSpace c = false → Parted gap (c :: z)

theorem cut_parens : (markToken gap .openParen).piece.Cut y ∧ (markToken gap .closeParen).piece.Cut y :=
  ⟨⟨'(', [], rfl, rfl⟩, ⟨')', [], rfl, rfl⟩⟩

theorem lexes_parenTokens (closed : Closed ts) (ended : Ended gap) : Lexes (parenTokens gap ts) y := by
  refine Token.lexes_cons.2 ⟨ended '(' _ rfl, cut_parens.1, Token.lexes_append.2 ⟨?_, ?_⟩⟩
  · exact (closed ')' (by decide) y).regap trivial
  · exact Token.lexes_cons.2 ⟨trivial, cut_parens.2, trivial⟩

theorem lexes_callTokens (receiver : Closed rs) (argument : Closed as) :
    Lexes (callTokens rs op as) y := by
  have call : Lexes (parenTokens [] as) y := lexes_parenTokens argument fun _ _ _ => trivial
  have name : (methodToken op).piece.Cut (textOf (parenTokens [] as) ++ y) := by
    rw [textOf_parenTokens]
    cases op
    · exact ⟨'a', ['d', 'd'], rfl, rfl⟩
    · exact ⟨'s', ['u', 'b'], rfl, rfl⟩
    · exact ⟨'m', ['u', 'l'], rfl, rfl⟩
  rw [callTokens, List.append_assoc, Token.lexes_append]
  refine ⟨receiver '.' (by decide) _, ?_⟩
  exact Token.lexes_cons.2 ⟨trivial, ⟨'.', [], rfl, rfl⟩, Token.lexes_cons.2 ⟨trivial, name, call⟩⟩

theorem closed_receiverTokens (closed : Closed ts) (ended : Ended (gapOf ts)) :
    Closed (receiverTokens l ts) := by
  intro d stop z
  unfold receiverTokens
  split
  · have call : Lexes (parenTokens [] ts) (d :: z) := lexes_parenTokens closed fun _ _ _ => trivial
    refine Token.lexes_cons.2 ⟨ended 'u' _ rfl, ?_, call⟩
    rw [textOf_parenTokens]
    exact ⟨'u', "int256".toList, rfl, rfl⟩
  · split
    · exact lexes_parenTokens closed ended
    · exact closed d stop z

theorem ended_space : Ended [[' ']] := by
  intro c z solid
  refine ⟨⟨' ', [], rfl, ?_⟩, trivial⟩
  have run : Token.runLength Token.isSpace (c :: z) = 0 := Token.runLength_eq_zero.2 fun d head =>
    Option.some.inj head ▸ solid
  exact Prod.ext rfl run

end Lexing

end SafeSubset.Checked
