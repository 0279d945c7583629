import SafeSubset.Proofs.Grammar.Layout
import SafeSubset.Proofs.Token.Lexes

/-! Expressions as tokens, wherever these stand. The trivia before the first
token are of no account, and what is put between parentheses or called is
spelled by what spells it and the tokens around. -/
namespace SafeSubset

open Token (Kind Mark Keyword Spaced width core regap)

variable {α : Type}

section Weave

variable {ε : Type} {W W' : Nat → ε → List Spaced → Prop} {o : Nat} {gs : List (List Spaced)}
  {parts : List (ε × List Spaced)} {ts : List Spaced}

theorem Weave.anywhere (weave : Weave W o gs parts ts)
    (each : ∀ p ∈ parts, ∀ o, W o p.1 p.2 → ∀ o', W' o' p.1 p.2) (o' : Nat) :
    Weave W' o' gs parts ts := by
  induction weave generalizing o' with
  | last => exact .last
  | part g us written rest ih =>
      exact .part g us (each _ List.mem_cons_self _ written _)
        (ih (fun p member => each p (List.mem_cons_of_mem _ member)) _)

/-- Behind the last part there is one group. -/
theorem Weave.end (weave : Weave W o gs parts ts) (none : parts.map Prod.fst = []) :
    gs = [ts] ∧ parts = [] := by
  cases weave with
  | last => exact ⟨rfl, rfl⟩
  | part => cases none

/-- One group has no parts around it. -/
theorem Weave.only {g : List Spaced} (weave : Weave W o [g] parts ts) : parts = [] ∧ ts = g := by
  cases weave with
  | last => exact ⟨rfl, rfl⟩
  | part _ _ _ rest => cases rest

/-- The first part, and what is woven behind it. -/
theorem Weave.next {g : List Spaced} {e : ε} {es : List ε} (weave : Weave W o (g :: gs) parts ts)
    (exprs : parts.map Prod.fst = e :: es) :
    ∃ us vs others, parts = (e, us) :: others ∧ others.map Prod.fst = es ∧ ts = g ++ us ++ vs ∧
      W (o + width g) e us ∧ Weave W (o + width g + width us) gs others vs := by
  cases weave with
  | last => cases exprs
  | part g us written rest =>
      obtain ⟨rfl, same⟩ := List.cons.inj exprs
      exact ⟨us, _, _, rfl, same, rfl, written, rest⟩

/-- Two parts with a token between. -/
theorem Weave.infix {t : Spaced} {l r : ε} (weave : Weave W o [[], [t], []] parts ts)
    (exprs : parts.map Prod.fst = [l, r]) :
    ∃ us vs, ts = us ++ ([t] ++ vs) ∧ W o l us ∧ W (o + width us + width [t]) r vs := by
  obtain ⟨us, _, _, -, exprs, rfl, left, weave⟩ := weave.next exprs
  obtain ⟨vs, _, _, -, exprs, rfl, right, weave⟩ := weave.next exprs
  obtain ⟨same, -⟩ := weave.end exprs
  cases same
  exact ⟨us, vs, by simp, by simpa using left, by simpa using right⟩

end Weave

namespace Expr

/-- The tokens write the expression, wherever they stand. -/
def Spelled (e : Expr α) (ts : List Spaced) : Prop := ∀ o, e.Written (fun _ _ _ => True) o ts

/-- Parts that are spelled by their tokens, with groups around. -/
abbrev Woven : List (List Spaced) → List (Expr α × List Spaced) → List Spaced → Prop :=
  Weave (fun _ e us => e.Spelled us) 0

variable {e l r : Expr α} {i : Info α} {ts us vs : List Spaced} {gap : List Source} {t u : Spaced}

theorem Spelled.node (gs : List (List Spaced)) (parts : List (Expr α × List Spaced))
    (groups : e.Groups gs) (fits : e.Fits) (apart : e.Apart (parts.map Prod.snd))
    (children : parts.map Prod.fst = e.children) (weave : Woven gs parts ts) : e.Spelled ts :=
  fun o => .node gs parts groups fits trivial apart children
    (weave.anywhere (fun _ _ _ spelled => spelled) o)

theorem Written.spelled {place : Span → Nat → List Spaced → Prop} {o : Nat}
    (h : e.Written place o ts) : e.Spelled ts := by
  induction e using induction_children generalizing o ts with
  | node e ih =>
      obtain ⟨gs, parts, groups, fits, -, apart, children, weave⟩ := h
      refine .node gs parts groups fits apart children (weave.anywhere ?_ 0)
      intro p member o written _
      exact ih p.1 (children ▸ List.mem_map_of_mem member) written

theorem Spelled.parts (h : e.Spelled ts) :
    ∃ gs parts, e.Groups gs ∧ e.Fits ∧ e.Apart (parts.map Prod.snd) ∧
      parts.map Prod.fst = e.children ∧ Woven gs parts ts := by
  obtain ⟨gs, parts, groups, fits, -, apart, children, weave⟩ := h 0
  exact ⟨gs, parts, groups, fits, apart, children,
    weave.anywhere (fun _ _ _ written _ => written.spelled) 0⟩

theorem Spelled.leaf (groups : e.Groups [ts]) (fits : e.Fits) (children : e.children = []) :
    e.Spelled ts :=
  fun _ => .leaf groups fits trivial children

theorem Spelled.ne_nil (h : e.Spelled ts) : ts ≠ [] := (h 0).ne_nil

section Regap

theorem kinds_regap (gap : List Source) (ts : List Spaced) :
    (regap gap ts).map Spaced.kind = ts.map Spaced.kind := by
  cases ts <;> rfl

theorem Listed.regap {opening closing : List Kind} {names : List (Option String)} {g : List Spaced}
    {gs : List (List Spaced)} (some : opening ≠ []) (h : Listed opening closing names (g :: gs)) :
    Listed opening closing names (regap gap g :: gs) := by
  cases names with
  | nil =>
      obtain ⟨_, same, kinds⟩ := h
      cases same
      exact ⟨_, rfl, (kinds_regap gap g).trans kinds⟩
  | cons n ns =>
      obtain ⟨front, lead, rest, same, kinds, others⟩ := h
      cases same
      have front_some : front ≠ [] := by
        rintro rfl
        exact some kinds.symm
      exact ⟨_, lead, gs, by rw [Token.regap_append gap front_some], (kinds_regap gap front).trans kinds, others⟩

/-- The kinds and the texts of a node's tokens are what counts. -/
theorem Groups.regap {g : List Spaced} {gs : List (List Spaced)} (some : g ≠ [])
    (h : e.Groups (g :: gs)) : e.Groups (regap gap g :: gs) := by
  cases e with
  | number i s =>
      rcases h with ⟨t, same, kind, text⟩ | ⟨t, u, same, kind, kind', word, text⟩
      · cases same
        exact .inl ⟨_, rfl, kind, text⟩
      · cases same
        exact .inr ⟨_, u, rfl, kind, kind', word, text⟩
  | new i type =>
      obtain ⟨t, ts, same, others⟩ := h
      cases same
      exact ⟨_, ts, rfl, others⟩
  | identifier i n | string i s | bool i b | elementary i type =>
      obtain ⟨t, same, others⟩ := h
      cases same
      exact ⟨_, rfl, others⟩
  | binary i op l r | assign i op l r =>
      obtain ⟨t, same, -⟩ := h
      cases same
      contradiction
  | unary i op fixity e =>
      cases fixity with
      | before =>
          obtain ⟨t, same, kind⟩ := h
          cases same
          exact ⟨_, rfl, kind⟩
      | after =>
          obtain ⟨t, same, -⟩ := h
          cases same
          contradiction
  | call i callee args names =>
      obtain ⟨rest, same, -⟩ := h
      cases same
      contradiction
  | member i base m =>
      obtain ⟨d, t, same, -⟩ := h
      cases same
      contradiction
  | index i base k =>
      cases k with
      | none =>
          obtain ⟨g, same, -⟩ := h
          cases same
          contradiction
      | some k =>
          obtain ⟨a, b, same, -⟩ := h
          cases same
          contradiction
  | conditional i c t f =>
      obtain ⟨a, b, same, -⟩ := h
      cases same
      contradiction
  | tuple i es => exact Listed.regap (List.cons_ne_nil _ _) h

theorem Apart.head {ps : List (List Spaced)} (h : e.Apart (us :: ps)) (vs : List Spaced) :
    e.Apart (vs :: ps) := by
  cases e with
  | index i base k =>
      cases k with
      | none => trivial
      | some k =>
          refine h.imp_right fun apart b n same => ?_
          obtain ⟨-, rfl⟩ := List.cons.inj same
          exact apart us n rfl
  | _ => trivial

/-- Trivia before the first token are of no account. -/
theorem Spelled.regap (gap : List Source) (h : e.Spelled ts) : e.Spelled (regap gap ts) := by
  induction e using induction_children generalizing ts with
  | node e ih =>
      obtain ⟨gs, parts, groups, fits, apart, children, weave⟩ := h.parts
      generalize start : (0 : Nat) = o at weave
      cases weave with
      | last => exact .node _ [] (groups.regap groups.ne_nil) fits apart children .last
      | @part _ g us vs c gs parts spelled rest =>
          subst start
          cases g with
          | nil =>
              have inner := ih c (children ▸ List.mem_cons_self) spelled
              rw [List.nil_append, Token.regap_append gap spelled.ne_nil]
              refine .node ([] :: gs) ((c, Token.regap gap us) :: parts) groups fits (apart.head _)
                children ?_
              exact Weave.left inner (rest.anywhere (fun _ _ _ h _ => h) _)
          | cons t g =>
              refine .node (Token.regap gap (t :: g) :: gs) ((c, us) :: parts)
                (groups.regap (List.cons_ne_nil t g)) fits apart children ?_
              exact .part _ us spelled (rest.anywhere (fun _ _ _ h _ => h) _)

end Regap

section Calls

theorem listed_single (opens : t.kind = .mark .openParen) (closes : u.kind = .mark .closeParen) :
    Listed [.mark .openParen] [.mark .closeParen] [none] [[t], [u]] :=
  ⟨[t], [], [[u]], rfl, by simp [opens], rfl, [u], rfl, by simp [closes]⟩

theorem Spelled.parens (h : e.Spelled ts) (opens : t.kind = .mark .openParen)
    (closes : u.kind = .mark .closeParen) : (Expr.tuple i [e]).Spelled (t :: ts ++ [u]) := by
  refine .node [[t], [u]] [(e, ts)] (listed_single opens closes) trivial trivial rfl ?_
  exact .part [t] ts h .last

theorem Spelled.call (callee : l.Spelled us) (level : l.level = 0) (h : e.Spelled ts)
    (opens : t.kind = .mark .openParen) (closes : u.kind = .mark .closeParen) :
    (Expr.call i l [e] []).Spelled (us ++ (t :: ts ++ [u])) := by
  refine .node [[], [t], [u]] [(l, us), (e, ts)] ?_ level trivial rfl ?_
  · exact ⟨_, rfl, .inl ⟨rfl, listed_single opens closes⟩⟩
  · exact .part [] us callee (.part [t] ts h .last)

theorem Spelled.member {m : Ident} (base : l.Spelled us) (level : l.level = 0)
    (created : ∀ s p, l.created? ≠ some (.user s p)) (dot : t.kind = .mark .dot)
    (kind : u.kind = .identifier) (text : String.ofList u.chars = m.text) :
    (Expr.member i l m).Spelled (us ++ [t, u]) := by
  refine .node [[], [t, u]] [(l, us)] ⟨t, u, rfl, dot, kind, text⟩ ⟨level, created⟩ trivial rfl ?_
  exact .part [] us base .last

theorem Spelled.assign {op : AssignOp} (left : l.Spelled us) (level : l.level ≤ 12)
    (right : r.Spelled vs) (kind : t.kind = .mark op.mark) :
    (Expr.assign i op l r).Spelled (us ++ t :: vs) := by
  refine .node [[], [t], []] [(l, us), (r, vs)] ⟨t, rfl, kind⟩ level trivial rfl ?_
  have woven : Woven [[], [t], []] [(l, us), (r, vs)] ([] ++ us ++ ([t] ++ vs ++ [])) :=
    .part [] us left (.part [t] vs right .last)
  simpa using woven

end Calls

end Expr
end SafeSubset
