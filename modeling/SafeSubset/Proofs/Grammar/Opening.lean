import SafeSubset.Proofs.Grammar.Follow
import SafeSubset.Proofs.Grammar.Spelled

/-! How the tokens of an expression start. The first one opens it, and where that
is a number no bracket closes behind it. -/
namespace SafeSubset

open Token (Kind Mark Spaced)

theorem Listed.starts {k : Kind} {opening closing : List Kind} {names : List (Option String)}
    {gs : List (List Spaced)} (h : Listed (k :: opening) closing names gs) :
    ∃ t g gs', gs = (t :: g) :: gs' ∧ t.kind = k := by
  cases names with
  | nil =>
      obtain ⟨g, rfl, kinds⟩ := h
      obtain ⟨t, g, rfl, kind, -⟩ := List.map_eq_cons_iff.1 kinds
      exact ⟨t, g, [], rfl, kind⟩
  | cons n ns =>
      obtain ⟨g, lead, rest, rfl, kinds, -⟩ := h
      obtain ⟨t, g, rfl, kind, -⟩ := List.map_eq_cons_iff.1 kinds
      exact ⟨t, g ++ lead, rest, rfl, kind⟩

namespace Expr

variable {α : Type} {e : Expr α} {g ts us : List Spaced} {gs : List (List Spaced)} {t u : Spaced}

/-- A first token and what may stand behind it. The token opens an expression, and
is no prefix operator if the expression is `tight`. -/
structure Starts (tight : Prop) (t : Spaced) (ts : List Spaced) : Prop where
  opens : ∀ m, t.kind = .mark m → m.opens = true
  plain : tight → ∀ op : UnaryOp, t.kind ≠ op.kind
  unclosed : t.kind = .number → ∀ u ∈ ts.head?, u.kind ≠ .mark .closeBracket

theorem Starts.of_other {tight : Prop} (other : ∀ m, t.kind ≠ .mark m) (kept : t.kind ≠ .keyword .delete)
    (number : t.kind = .number → ∀ u ∈ ts.head?, u.kind ≠ .mark .closeBracket) : Starts tight t ts where
  opens m mark := absurd mark (other m)
  plain _ op := by
    cases op with
    | delete => exact kept
    | _ => exact other _
  unclosed := number

theorem Starts.of_paren {tight : Prop} (kind : t.kind = .mark .openParen) : Starts tight t ts where
  opens m mark := by
    obtain rfl := Kind.mark.inj (kind.symm.trans mark)
    rfl
  plain _ op := by
    rw [kind]
    cases op <;> decide
  unclosed number := by cases kind.symm.trans number

/-- The first group of a node starts it, alone if with a number; or else its first
part does, which is as tight, and a mark stands behind that. -/
theorem Groups.starts (h : e.Groups (g :: gs)) (fits : e.Fits) :
    (∃ t g', g = t :: g' ∧ Starts (e.level = 0) t g' ∧ (t.kind = .number → gs = [])) ∨
      g = [] ∧ (∀ c ∈ e.children.head?, e.level = 0 → c.level = 0) ∧
        ∃ u g' gs' m, gs = (u :: g') :: gs' ∧ u.kind = .mark m ∧ m ≠ .closeBracket := by
  have leaf : ∀ {t : Spaced}, (∀ m, t.kind ≠ .mark m) → t.kind ≠ .keyword .delete →
      Starts (e.level = 0) t [] := fun other kept => .of_other other kept (by simp)
  have behind : ∀ {c : Expr α} {cs : List (Expr α)}, e.children = c :: cs →
      (e.level = 0 → c.level = 0) → ∀ d ∈ e.children.head?, e.level = 0 → d.level = 0 := by
    intro c cs same tight d head
    rw [same] at head
    obtain rfl := Option.some.inj head
    exact tight
  cases e with
  | number i s =>
      rcases h with ⟨t, same, kind, -⟩ | ⟨t, u, same, kind, kind', -⟩
      · cases same
        exact .inl ⟨t, [], rfl, leaf (by simp [kind]) (by simp [kind]), fun _ => rfl⟩
      · cases same
        exact .inl ⟨t, [u], rfl, .of_other (by simp [kind]) (by simp [kind]) (by simp [kind']), fun _ => rfl⟩
  | identifier i n | string i s =>
      obtain ⟨t, same, kind, -⟩ := h
      cases same
      exact .inl ⟨t, [], rfl, leaf (by simp [kind]) (by simp [kind]), fun _ => rfl⟩
  | bool i b =>
      obtain ⟨t, same, kind⟩ := h
      cases same
      exact .inl ⟨t, [], rfl, leaf (by simp [kind]) (by cases b <;> simp [kind]), fun _ => rfl⟩
  | elementary i type =>
      obtain ⟨t, same, ⟨kind, -⟩ | ⟨kind, -⟩⟩ := h <;> cases same <;>
        exact .inl ⟨t, [], rfl, leaf (by simp [kind]) (by simp [kind]), fun _ => rfl⟩
  | new i type =>
      obtain ⟨t, ts, same, kind, -⟩ := h
      cases same
      exact .inl ⟨t, ts, rfl, .of_other (by simp [kind]) (by simp [kind]) (by simp [kind]), fun _ => rfl⟩
  | binary i op l r =>
      obtain ⟨t, same, kind⟩ := h
      cases same
      refine .inr ⟨rfl, behind rfl fun tight => ?_, t, [], _, op.mark, rfl, kind, by cases op <;> decide⟩
      exact absurd tight (by cases op <;> exact Nat.succ_ne_zero _)
  | assign i op l r =>
      obtain ⟨t, same, kind⟩ := h
      cases same
      exact .inr ⟨rfl, behind rfl fun tight => absurd tight (Nat.succ_ne_zero 13), t, [], _, op.mark, rfl,
        kind, by cases op <;> decide⟩
  | conditional i c t f =>
      obtain ⟨a, b, same, kind, -⟩ := h
      cases same
      exact .inr ⟨rfl, behind rfl fun tight => absurd tight (Nat.succ_ne_zero 12), a, [], _, _, rfl, kind,
        by decide⟩
  | unary i op fixity e =>
      cases fixity with
      | before =>
          obtain ⟨t, same, kind⟩ := h
          cases same
          refine .inl ⟨t, [], rfl, ⟨fun m mark => ?_, fun tight => absurd tight (Nat.succ_ne_zero 0), by simp⟩,
            fun number => ?_⟩
          · rw [kind] at mark
            cases op <;> cases mark <;> rfl
          · rw [kind] at number
            cases op <;> cases number
      | after =>
          obtain ⟨t, same, kind, step⟩ := h
          cases same
          refine .inr ⟨rfl, behind rfl fun _ => fits, t, [], [], ?_⟩
          rcases step with rfl | rfl
          · exact ⟨.plusPlus, rfl, kind, by decide⟩
          · exact ⟨.minusMinus, rfl, kind, by decide⟩
  | call i callee args names =>
      obtain ⟨rest, same, listed⟩ := h
      cases same
      refine .inr ⟨rfl, behind rfl fun _ => fits, ?_⟩
      rcases listed with ⟨-, listed⟩ | ⟨-, listed⟩ <;>
        obtain ⟨t, g', gs', rfl, kind⟩ := listed.starts <;>
        exact ⟨t, g', gs', .openParen, rfl, kind, by decide⟩
  | member i base m =>
      obtain ⟨d, t, same, dot, -⟩ := h
      cases same
      exact .inr ⟨rfl, behind rfl fun _ => fits.1, d, [t], _, .dot, rfl, dot, by decide⟩
  | index i base k =>
      cases k with
      | none =>
          obtain ⟨g, same, kinds⟩ := h
          cases same
          obtain ⟨a, b, rfl, kind, -⟩ := List.map_eq_cons_iff.1 kinds
          exact .inr ⟨rfl, behind rfl fun _ => fits.1, a, b, _, .openBracket, rfl, kind, by decide⟩
      | some k =>
          obtain ⟨a, b, same, kind, -⟩ := h
          cases same
          exact .inr ⟨rfl, behind rfl fun _ => fits, a, [], _, .openBracket, rfl, kind, by decide⟩
  | tuple i es =>
      obtain ⟨t, g', gs', same, kind⟩ := Listed.starts h
      cases same
      exact .inl ⟨t, g', rfl, .of_paren kind, fun number => by cases kind.symm.trans number⟩

/-- The first token of an expression. -/
theorem Spelled.starts (h : e.Spelled (t :: ts)) : Starts (e.level = 0) t ts := by
  induction e using induction_children generalizing t ts with
  | node e ih =>
      obtain ⟨gs, parts, groups, fits, -, children, weave⟩ := h.parts
      generalize same : t :: ts = us at weave
      cases weave with
      | last =>
          subst same
          rcases groups.starts fits with ⟨_, _, same, starts, -⟩ | ⟨none, -⟩
          · cases same
            exact starts
          · cases none
      | @part _ g us vs c gs parts spelled rest =>
          have first : c ∈ e.children.head? := by simp [← children]
          rcases groups.starts fits with ⟨u, g', rfl, starts, alone⟩ | ⟨rfl, tight, u, g', gs', m, rfl, mark, other⟩
          · cases same
            refine ⟨starts.opens, starts.plain, fun number => ?_⟩
            cases rest <;> cases alone number
          · have some := spelled.ne_nil
            obtain ⟨v, us', rfl⟩ := List.exists_cons_of_ne_nil some
            cases same
            have inner := ih c (List.mem_of_mem_head? first) spelled
            refine ⟨inner.opens, fun level => inner.plain (tight c first level), fun number w head => ?_⟩
            cases us' with
            | cons w' us' => exact inner.unclosed number w head
            | nil =>
                have next : w = u := by
                  cases rest <;> simpa using head.symm
                rw [next, mark]
                simpa using other

end Expr
end SafeSubset
