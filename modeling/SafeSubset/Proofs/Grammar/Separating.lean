import SafeSubset.Proofs.Grammar.Spelled

/-! The tokens between the parts of an expression. Whatever stands between two
parts starts and ends with a mark, so a part can be replaced without the tokens
around it running into it. -/
namespace SafeSubset

open Token (Kind Mark Keyword Spaced)

variable {α : Type} {g : List Spaced} {gs : List (List Spaced)}

def StartsMark (g : List Spaced) : Prop := ∃ t us m, g = t :: us ∧ t.kind = .mark m

def EndsMark (g : List Spaced) : Prop := ∃ us t m, g = us ++ [t] ∧ t.kind = .mark m

/-- Groups between parts and behind the last one. -/
inductive Separating : List (List Spaced) → Prop where
  | last {g : List Spaced} (starts : g = [] ∨ StartsMark g) : Separating [g]
  | more {g : List Spaced} {gs : List (List Spaced)} (starts : StartsMark g) (ends : EndsMark g)
      (others : Separating gs) : Separating (g :: gs)

theorem startsMark_of_kinds {m : Mark} {ks : List Kind} (h : g.map Spaced.kind = .mark m :: ks) :
    StartsMark g := by
  obtain ⟨t, us, rfl, kind, -⟩ := List.map_eq_cons_iff.1 h
  exact ⟨t, us, m, rfl, kind⟩

theorem endsMark_of_kinds {m : Mark} {ks : List Kind} (h : g.map Spaced.kind = ks ++ [.mark m]) :
    EndsMark g := by
  obtain ⟨us, last, rfl, -, one⟩ := List.map_eq_append_iff.1 h
  obtain ⟨t, _, rfl, kind, none⟩ := List.map_eq_cons_iff.1 one
  obtain rfl := List.map_eq_nil_iff.1 none
  exact ⟨us, t, m, rfl, kind⟩

theorem EndsMark.lead {n : Option String} {lead : List Spaced} (ends : EndsMark g)
    (h : Lead n lead) : EndsMark (g ++ lead) := by
  cases n with
  | none =>
      obtain rfl : lead = [] := h
      simpa using ends
  | some n =>
      obtain ⟨t, c, rfl, -, -, colon⟩ := h
      exact ⟨g ++ [t], c, .colon, by simp, colon⟩

theorem StartsMark.single {t : Spaced} {m : Mark} (kind : t.kind = .mark m) : StartsMark [t] :=
  ⟨t, [], m, rfl, kind⟩

theorem EndsMark.single {t : Spaced} {m : Mark} (kind : t.kind = .mark m) : EndsMark [t] :=
  ⟨[], t, m, rfl, kind⟩

theorem ListTail.separating {m : Mark} {ks : List Kind} {names : List (Option String)}
    (h : ListTail (.mark m :: ks) names gs) : Separating gs := by
  induction names generalizing gs with
  | nil =>
      obtain ⟨g, rfl, kinds⟩ := h
      exact .last (.inr (startsMark_of_kinds kinds))
  | cons n ns ih =>
      obtain ⟨t, lead, rest, rfl, comma, leads, others⟩ := h
      exact .more ⟨t, lead, .comma, rfl, comma⟩ ((EndsMark.single comma).lead leads) (ih others)

theorem StartsMark.append (starts : StartsMark g) (us : List Spaced) : StartsMark (g ++ us) := by
  obtain ⟨t, vs, m, rfl, kind⟩ := starts
  exact ⟨t, vs ++ us, m, rfl, kind⟩

theorem Listed.separating {m m' m'' : Mark} {opening opening' closing : List Kind}
    {names : List (Option String)} (starts : opening = .mark m :: opening')
    (ends : ∃ ks, opening = ks ++ [.mark m']) (h : Listed opening (.mark m'' :: closing) names gs) :
    Separating gs := by
  cases names with
  | nil =>
      obtain ⟨g, rfl, kinds⟩ := h
      rw [starts] at kinds
      exact .last (.inr (startsMark_of_kinds kinds))
  | cons n ns =>
      obtain ⟨g, lead, rest, rfl, kinds, leads, others⟩ := h
      obtain ⟨ks, ends⟩ := ends
      exact .more ((startsMark_of_kinds (kinds.trans starts)).append lead)
        ((endsMark_of_kinds (kinds.trans ends)).lead leads) others.separating

theorem Listed.framed {m m' : Mark} {opening closing : List Kind} {names : List (Option String)}
    (some : names ≠ []) (h : Listed (opening ++ [.mark m]) (.mark m' :: closing) names gs) :
    ∃ g gs', gs = g :: gs' ∧ EndsMark g ∧ Separating gs' := by
  cases names with
  | nil => contradiction
  | cons n ns =>
      obtain ⟨g, lead, rest, rfl, kinds, leads, others⟩ := h
      exact ⟨_, _, rfl, (endsMark_of_kinds kinds).lead leads, others.separating⟩

namespace Expr

variable {e : Expr α}

/-- What may stand before the first part, which starts with something new only if
it is `loose`. -/
def Before (loose : Prop) (g : List Spaced) : Prop :=
  ∃ us t, g = us ++ [t] ∧ ((∃ m, t.kind = .mark m) ∨ t.kind ≠ .number ∧ ¬ loose)

theorem before_of_ends {loose : Prop} (ends : EndsMark g) : Before loose g := by
  obtain ⟨us, t, m, rfl, kind⟩ := ends
  exact ⟨us, t, rfl, .inl ⟨m, kind⟩⟩

/-- The groups of a node around its parts. Without tokens before it the first
part is no looser than the node. -/
theorem Groups.framed (h : e.Groups gs) (fits : e.Fits) {c : Expr α} {cs : List (Expr α)}
    (children : e.children = c :: cs) :
    ∃ g gs', gs = g :: gs' ∧ Separating gs' ∧
      (g = [] ∧ (2 ≤ c.level → 2 ≤ e.level) ∨ Before (2 ≤ c.level) g) := by
  cases e with
  | binary i op l r =>
      obtain ⟨t, rfl, kind⟩ := h
      cases children
      refine ⟨[], _, rfl, .more (.single kind) (.single kind) (.last (.inl rfl)), .inl ⟨rfl, fun loose => ?_⟩⟩
      exact Nat.le_trans loose fits.1
  | assign i op l r =>
      obtain ⟨t, rfl, kind⟩ := h
      exact ⟨[], _, rfl, .more (.single kind) (.single kind) (.last (.inl rfl)),
        .inl ⟨rfl, fun _ => show 2 ≤ 14 by decide⟩⟩
  | conditional i c t f =>
      obtain ⟨a, b, rfl, kind, kind'⟩ := h
      exact ⟨[], _, rfl, .more (.single kind) (.single kind) (.more (.single kind') (.single kind')
        (.last (.inl rfl))), .inl ⟨rfl, fun _ => show 2 ≤ 13 by decide⟩⟩
  | unary i op fixity e =>
      cases children
      cases fixity with
      | before =>
          obtain ⟨t, rfl, kind⟩ := h
          refine ⟨[t], [[]], rfl, .last (.inl rfl), .inr ⟨[], t, rfl, .inr ⟨?_, ?_⟩⟩⟩
          · rw [kind]
            cases op <;> decide
          · have tight : c.level ≤ 1 := fits
            omega
      | after =>
          obtain ⟨t, rfl, kind, step⟩ := h
          have tight : c.level = 0 := fits
          refine ⟨[], _, rfl, .last (.inr ?_), .inl ⟨rfl, fun loose => by omega⟩⟩
          rcases step with rfl | rfl
          · exact .single kind
          · exact .single kind
  | member i base m =>
      obtain ⟨d, t, rfl, dot, -⟩ := h
      cases children
      have tight : c.level = 0 := fits.1
      exact ⟨[], _, rfl, .last (.inr ⟨d, [t], .dot, rfl, dot⟩), .inl ⟨rfl, fun loose => by omega⟩⟩
  | index i base k =>
      cases k with
      | none =>
          obtain ⟨g, rfl, kinds⟩ := h
          cases children
          have tight : c.level = 0 := fits.1
          exact ⟨[], _, rfl, .last (.inr (startsMark_of_kinds kinds)), .inl ⟨rfl, fun loose => by omega⟩⟩
      | some k =>
          obtain ⟨a, b, rfl, opens, closes⟩ := h
          cases children
          have tight : c.level = 0 := fits
          exact ⟨[], _, rfl, .more (.single opens) (.single opens) (.last (.inr (.single closes))),
            .inl ⟨rfl, fun loose => by omega⟩⟩
  | call i callee args names =>
      obtain ⟨rest, rfl, listed⟩ := h
      cases children
      have tight : c.level = 0 := fits
      refine ⟨[], rest, rfl, ?_, .inl ⟨rfl, fun loose => by omega⟩⟩
      rcases listed with ⟨-, listed⟩ | ⟨-, listed⟩
      · exact listed.separating rfl ⟨[], rfl⟩
      · exact listed.separating rfl ⟨[.mark .openParen], rfl⟩
  | tuple i es =>
      have some : (es.map fun _ => (none : Option String)) ≠ [] := by
        cases es with
        | nil => cases children
        | cons => simp
      have listed : Listed ([] ++ [.mark .openParen]) [.mark .closeParen] _ gs := h
      obtain ⟨g, gs', rfl, ends, others⟩ := listed.framed some
      exact ⟨g, gs', rfl, others, .inr (before_of_ends ends)⟩
  | _ => cases children

end Expr
end SafeSubset
