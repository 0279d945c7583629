import SafeSubset.Proofs.Edits.Arranged
import SafeSubset.Proofs.Grammar.Placement

/-! How the spans of expressions lie. The parts of a node lie one behind the
other inside it, and none of them has its span. -/
namespace SafeSubset

open Token (Spaced width extent)

variable {α : Type}

/-- The spans of an expression and of everything in it. -/
inductive Expr.Nested : Expr α → Prop where
  | node {e : Expr α} (wide : e.span.start < e.span.stop)
      (parts : Arranged e.span.start (e.children.map span) e.span.stop)
      (proper : ∀ c ∈ e.children, c.span ≠ e.span) (inner : ∀ c ∈ e.children, c.Nested) : e.Nested

theorem Expr.Nested.wide {e : Expr α} (h : e.Nested) : e.span.start < e.span.stop := by
  cases h
  assumption

/-- More tokens before start no later. -/
theorem Token.extent_start_le (o : Nat) {g us vs : List Spaced} (some : us ≠ []) :
    (extent o (g ++ us ++ vs)).start ≤ (extent (o + width g) us).start := by
  rw [List.append_assoc]
  cases g with
  | nil =>
      rw [List.nil_append, Token.extent_append o some]
      exact Nat.le_refl _
  | cons t g =>
      have wide := Token.extent_lt o (List.cons_ne_nil t g)
      have stop := Token.extent_stop o (t :: g)
      have behind := Token.le_extent (o + width (t :: g)) us
      rw [Token.extent_append o (by simp)]
      simp only
      omega

section Weave

variable {ε : Type} {place : ε → Span} {W : Nat → ε → List Spaced → Prop} {o : Nat}
  {gs : List (List Spaced)} {parts : List (ε × List Spaced)} {ts : List Spaced}

/-- Parts that have the places of their tokens follow one another. -/
theorem Weave.arranged (spans : ∀ o e us, W o e us → us ≠ [] ∧ place e = extent o us)
    (weave : Weave W o gs parts ts) :
    Arranged (extent o ts).start (parts.map fun p => place p.1) (o + width ts) := by
  induction weave with
  | @last o g =>
      cases g with
      | nil => exact .nil (Nat.le_refl _)
      | cons t g => exact .nil (Nat.le_of_lt (Token.extent_lt o (by simp)))
  | @part o g us vs e gs parts written rest ih =>
      obtain ⟨some, same⟩ := spans _ _ _ written
      have wide := Token.extent_lt (o + width g) some
      have stops := Token.extent_stop (o + width g) us
      have behind : Arranged (o + width g + width us) (parts.map fun p => place p.1)
          (o + width (g ++ us ++ vs)) := by
        have tail := ih.left (Token.le_extent (o + width g + width us) vs)
        simpa [Nat.add_assoc] using tail
      have first : (extent o (g ++ us ++ vs)).start ≤ (extent (o + width g) us).start :=
        Token.extent_start_le o some
      have le := behind.le
      show Arranged _ (place e :: _) _
      rw [same]
      exact .cons first (by omega) (by omega) (by rwa [stops])

theorem Weave.length_le (weave : Weave W o gs parts ts) : gs.flatten.length ≤ ts.length := by
  induction weave with
  | last => simp
  | part g us written rest ih =>
      simp only [List.flatten_cons, List.length_append]
      omega

/-- Where a part stands, and how many other tokens there are. -/
theorem Weave.split (weave : Weave W o gs parts ts) {p : ε × List Spaced} (member : p ∈ parts) :
    ∃ before behind, ts = before ++ p.2 ++ behind ∧ W (o + width before) p.1 p.2 ∧
      gs.flatten.length ≤ (before ++ behind).length := by
  induction weave with
  | last => cases member
  | @part o g us vs e gs parts written rest ih =>
      rcases List.mem_cons.1 member with rfl | member
      · have others := rest.length_le
        exact ⟨g, vs, rfl, written, by simpa using others⟩
      · obtain ⟨before, behind, rfl, written', more⟩ := ih member
        refine ⟨g ++ us ++ before, behind, by simp, by simpa [Nat.add_assoc] using written', ?_⟩
        simp only [List.flatten_cons, List.length_append] at more ⊢
        omega

/-- Where one of the parts stands. -/
theorem Laid.mem {es : List ε} (laid : Laid W o es ts) {e : ε} (member : e ∈ es) :
    ∃ before us behind, ts = before ++ us ++ behind ∧ W (o + width before) e us := by
  obtain ⟨gs, parts, weave, rfl⟩ := laid
  obtain ⟨p, inside, rfl⟩ := List.mem_map.1 member
  obtain ⟨before, behind, same, written, -⟩ := weave.split inside
  exact ⟨before, p.2, behind, same, written⟩

/-- A part among tokens of the node itself has another place. -/
theorem Weave.proper (spans : ∀ o e us, W o e us → us ≠ [] ∧ place e = extent o us)
    (weave : Weave W o gs parts ts) (own : gs.flatten ≠ []) {p : ε × List Spaced}
    (member : p ∈ parts) : place p.1 ≠ extent o ts := by
  obtain ⟨before, behind, rfl, written, more⟩ := weave.split member
  obtain ⟨some, same⟩ := spans _ _ _ written
  rw [same]
  intro whole
  have positive := List.length_pos_iff.2 own
  cases before with
  | nil =>
      cases behind with
      | nil =>
          simp only [List.append_nil, List.length_nil] at more
          omega
      | cons t behind =>
          have stops := congrArg Span.stop whole
          have wide := Token.width_pos (List.cons_ne_nil t behind)
          simp only [Token.extent_stop, Token.width_append, Token.width_nil] at stops
          omega
  | cons t before =>
      have starts := congrArg Span.start whole
      have wide := Token.extent_lt o (List.cons_ne_nil t before)
      have stop := Token.extent_stop o (t :: before)
      have behind' := Token.le_extent (o + width (t :: before)) p.2
      rw [List.append_assoc, Token.extent_append o (by simp)] at starts
      simp only at starts
      omega

theorem Laid.arranged (spans : ∀ o e us, W o e us → us ≠ [] ∧ place e = extent o us) {es : List ε}
    (laid : Laid W o es ts) : Arranged (extent o ts).start (es.map place) (o + width ts) := by
  obtain ⟨gs, parts, weave, rfl⟩ := laid
  simpa [Function.comp_def] using weave.arranged spans

/-- What holds of each part where it stands holds of all. -/
theorem Laid.forall {P : ε → Prop} (step : ∀ o e us, W o e us → P e) {es : List ε}
    (laid : Laid W o es ts) : ∀ e ∈ es, P e := by
  obtain ⟨gs, parts, weave, rfl⟩ := laid
  intro e member
  obtain ⟨p, inside, rfl⟩ := List.mem_map.1 member
  obtain ⟨_, _, -, written, -⟩ := weave.split inside
  exact step _ _ _ written

end Weave

theorem Listed.flatten_ne_nil {opening closing : List Token.Kind} {names : List (Option String)}
    {gs : List (List Spaced)} (some : opening ≠ []) (h : Listed opening closing names gs) :
    gs.flatten ≠ [] := by
  cases names with
  | nil =>
      obtain ⟨g, rfl, kinds⟩ := h
      rintro none
      obtain rfl : g = [] := by simpa using none
      exact some (List.append_eq_nil_iff.1 kinds.symm).1
  | cons n ns =>
      obtain ⟨g, lead, rest, rfl, kinds, -⟩ := h
      rintro none
      obtain rfl : g = [] := by
        simp only [List.flatten_cons, List.append_eq_nil_iff] at none
        exact none.1.1
      exact some kinds.symm

/-- A node has a token of its own. -/
theorem Expr.Groups.flatten_ne_nil {e : Expr α} {gs : List (List Spaced)} (h : e.Groups gs) :
    gs.flatten ≠ [] := by
  cases e with
  | unary i op fixity e => cases fixity <;> obtain ⟨t, rfl, -⟩ := h <;> simp
  | index i base k =>
      cases k with
      | none =>
          obtain ⟨g, rfl, kinds⟩ := h
          rintro none
          obtain rfl : g = [] := by simpa using none
          cases kinds
      | some k =>
          obtain ⟨a, b, rfl, -⟩ := h
          simp
  | tuple i es => exact Listed.flatten_ne_nil (by simp) h
  | call i callee args names =>
      obtain ⟨rest, rfl, ⟨-, listed⟩ | ⟨-, listed⟩⟩ := h
      · simpa using listed.flatten_ne_nil (by simp)
      · simpa using listed.flatten_ne_nil (by simp)
  | number i s => obtain ⟨t, rfl, -⟩ | ⟨t, u, rfl, -⟩ := h <;> simp
  | member i base m =>
      obtain ⟨d, t, rfl, -⟩ := h
      simp
  | conditional i c t f =>
      obtain ⟨a, b, rfl, -⟩ := h
      simp
  | new i type =>
      obtain ⟨t, ts, rfl, -⟩ := h
      simp
  | _ =>
      obtain ⟨t, rfl, -⟩ := h
      simp

theorem Expr.Located.span {o : Nat} {e : Expr α} {ts : List Spaced} (h : e.Located o ts) :
    ts ≠ [] ∧ e.span = extent o ts := by
  refine ⟨h.ne_nil, ?_⟩
  cases h
  assumption

/-- Spans of what is read from tokens are nested. -/
theorem Expr.Located.nested {o : Nat} {e : Expr α} {ts : List Spaced} (h : e.Located o ts) :
    e.Nested := by
  induction e using induction_children generalizing o ts with
  | node e ih =>
      obtain ⟨some, same⟩ := h.span
      obtain ⟨gs, parts, groups, -, -, -, children, weave⟩ := h
      have spans := fun o (e : Expr α) us (h : e.Located o us) => h.span
      have laid : Laid Expr.Located o e.children ts := ⟨_, _, weave, children⟩
      have inside := laid.arranged spans
      refine .node ?_ ?_ ?_ ?_
      · rw [same]
        exact Token.extent_lt o some
      · rw [same]
        exact inside
      · intro c member
        obtain ⟨p, inside, rfl⟩ := List.mem_map.1 (children ▸ member)
        rw [same]
        exact weave.proper spans groups.flatten_ne_nil inside
      · intro c member
        obtain ⟨p, inside, rfl⟩ := List.mem_map.1 (children ▸ member)
        obtain ⟨_, _, -, written, -⟩ := weave.split inside
        exact ih _ member written

end SafeSubset
