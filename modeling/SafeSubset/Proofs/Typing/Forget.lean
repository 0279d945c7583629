import SafeSubset.Proofs.Grammar.Placement
import SafeSubset.Proofs.Syntax.Map
import SafeSubset.Typing.SourceUnit

/-! Typing leaves the syntax as it is: without the types there is the expression
that was typed. So what is typed stands where it stood. -/
namespace SafeSubset

open Token (Spaced width extent)

variable {α β : Type}

mutual
/-- An expression without the notes of its nodes. -/
def Expr.forget : Expr α → Expr Unit
  | .identifier i n => .identifier ⟨i.span, ()⟩ n
  | .number i t => .number ⟨i.span, ()⟩ t
  | .string i t => .string ⟨i.span, ()⟩ t
  | .bool i b => .bool ⟨i.span, ()⟩ b
  | .elementary i t => .elementary ⟨i.span, ()⟩ t
  | .binary i op l r => .binary ⟨i.span, ()⟩ op l.forget r.forget
  | .unary i op fixity e => .unary ⟨i.span, ()⟩ op fixity e.forget
  | .assign i op l r => .assign ⟨i.span, ()⟩ op l.forget r.forget
  | .call i callee args names => .call ⟨i.span, ()⟩ callee.forget (Expr.forgetAll args) names
  | .member i base m => .member ⟨i.span, ()⟩ base.forget m
  | .index i base none => .index ⟨i.span, ()⟩ base.forget none
  | .index i base (some k) => .index ⟨i.span, ()⟩ base.forget (some k.forget)
  | .conditional i c t f => .conditional ⟨i.span, ()⟩ c.forget t.forget f.forget
  | .tuple i es => .tuple ⟨i.span, ()⟩ (Expr.forgetAll es)
  | .new i t => .new ⟨i.span, ()⟩ t

def Expr.forgetAll : List (Expr α) → List (Expr Unit)
  | [] => []
  | e :: es => e.forget :: Expr.forgetAll es
end

namespace Expr

theorem forgetAll_eq (es : List (Expr α)) : forgetAll es = es.map forget := by
  induction es with
  | nil => rfl
  | cons e es ih => simp [forgetAll, ih]

@[simp] theorem span_forget (e : Expr α) : e.forget.span = e.span := by
  cases e with
  | index i base k => cases k <;> rfl
  | _ => rfl

theorem children_forget (e : Expr α) : e.forget.children = e.children.map forget := by
  cases e with
  | index i base k => cases k <;> rfl
  | _ => simp [forget, children, forgetAll_eq]

@[simp] theorem level_forget (e : Expr α) : e.forget.level = e.level := by
  cases e with
  | index i base k => cases k <;> rfl
  | unary i op fixity e => cases fixity <;> rfl
  | _ => rfl

theorem groups_forget (e : Expr α) : e.forget.Groups = e.Groups := by
  cases e with
  | index i base k => cases k <;> rfl
  | unary i op fixity e => cases fixity <;> rfl
  | call i callee args names =>
      funext gs
      simp [forget, Groups, forgetAll_eq, Function.comp_def]
  | tuple i es =>
      funext gs
      simp [forget, Groups, forgetAll_eq, Function.comp_def]
  | _ => rfl

@[simp] theorem created_forget (e : Expr α) : e.forget.created? = e.created? := by
  cases e with
  | index i base k => cases k <;> rfl
  | _ => rfl

theorem fits_forget (e : Expr α) : e.forget.Fits ↔ e.Fits := by
  cases e with
  | index i base k => cases k <;> simp [forget, Fits]
  | unary i op fixity e => cases fixity <;> simp [forget, Fits]
  | _ => simp [forget, Fits]

theorem apart_forget (e : Expr α) (parts : List (List Spaced)) :
    e.forget.Apart parts ↔ e.Apart parts := by
  cases e with
  | index i base k => cases k <;> simp [forget, Apart]
  | _ => simp [forget, Apart]

theorem forall₂_forget {es : List (Expr α)} {es' : List (Expr β)}
    (same : es.map forget = es'.map forget) :
    List.Forall₂ (fun e e' => e.forget = e'.forget) es es' := by
  rw [← List.forall₂_eq_eq_eq, List.forall₂_map_left_iff, List.forall₂_map_right_iff] at same
  exact same

/-- What is written depends on the syntax alone. -/
theorem Written.congr {place : Span → Nat → List Spaced → Prop} {e : Expr α} {e' : Expr β}
    (same : e.forget = e'.forget) {o : Nat} {ts : List Spaced} (h : e.Written place o ts) :
    e'.Written place o ts := by
  induction e using induction_children generalizing e' o ts with
  | node e ih =>
      obtain ⟨gs, parts, groups, fits, placed, apart, children, weave⟩ := h
      have related : List.Forall₂ (fun c c' => c ∈ e.children ∧ c.forget = c'.forget)
          e.children e'.children := by
        refine (List.forall₂_and_left _ _).2 ⟨fun c h => h, forall₂_forget ?_⟩
        rw [← children_forget, ← children_forget, same]
      obtain ⟨parts', woven, children', tokens⟩ := weave.transfer
        (fun _ _ _ _ ⟨inside, same⟩ written => ih _ (children ▸ inside) same written)
        (children ▸ related)
      refine .node gs parts' ?_ ?_ ?_ ?_ children' woven
      · rwa [← groups_forget, ← same, groups_forget]
      · rwa [← fits_forget, ← same, fits_forget]
      · rwa [← span_forget, ← same, span_forget]
      · rwa [tokens, ← apart_forget, ← same, apart_forget]

end Expr

section Contracts

variable {c : Contract α} {d : Contract β}

theorem Laid.congr {es : List (Expr α)} {es' : List (Expr β)}
    (same : es.map Expr.forget = es'.map Expr.forget) {o : Nat} {ts : List Spaced}
    (laid : Laid Expr.Located o es ts) : Laid Expr.Located o es' ts := by
  refine Laid.transfer ?_ (Expr.forall₂_forget same) laid
  exact fun _ _ _ _ same written => written.congr same

theorem flatMap_mapRoots_bases (f : Expr α → Expr β) (c : Contract α) :
    (c.mapRoots f).bases.flatMap Base.roots = (c.bases.flatMap Base.roots).map f := by
  simp [Contract.mapRoots, List.flatMap_map, List.map_flatMap, Base.roots_mapRoots]

theorem flatMap_mapRoots_members (f : Expr α → Expr β) (c : Contract α) :
    (c.mapRoots f).members.flatMap Member.roots = (c.members.flatMap Member.roots).map f := by
  simp [Contract.mapRoots, List.flatMap_map, List.map_flatMap, Member.roots_mapRoots]

theorem entry_mapRoots (f : Expr α → Expr β) (c : Contract α) :
    (c.mapRoots f).entry = c.entry := by
  cases h : c.members with
  | nil => simp [Contract.entry, Contract.mapRoots, h]
  | cons m ms => cases m <;> simp [Contract.entry, Contract.mapRoots, h, Member.mapRoots, Member.span,
      Variable.mapRoots, FunctionDef.mapRoots]

/-- The two contracts have one place and the same roots. -/
structure Contract.Alike (c : Contract α) (d : Contract β) : Prop where
  span : c.span = d.span
  entry : c.entry = d.entry
  none : c.members = [] → d.members = []
  bases : (c.bases.flatMap Base.roots).map Expr.forget = (d.bases.flatMap Base.roots).map Expr.forget
  members :
    (c.members.flatMap Member.roots).map Expr.forget = (d.members.flatMap Member.roots).map Expr.forget

theorem Contract.alike_of_mapRoots (same : c.mapRoots Expr.forget = d.mapRoots Expr.forget) :
    c.Alike d where
  span := congrArg (fun c : Contract Unit => c.span) same
  entry := by rw [← entry_mapRoots Expr.forget c, same, entry_mapRoots]
  none h := by
    have members := congrArg (fun c : Contract Unit => c.members) same
    simp only [Contract.mapRoots, h, List.map_nil] at members
    exact List.map_eq_nil_iff.1 members.symm
  bases := by rw [← flatMap_mapRoots_bases, same, flatMap_mapRoots_bases]
  members := by rw [← flatMap_mapRoots_members, same, flatMap_mapRoots_members]

/-- Where a contract stands depends on its syntax alone. -/
theorem Contract.Placed.congr (alike : c.Alike d) {o : Nat} {ts : List Spaced} (h : c.Placed o ts) :
    d.Placed o ts := by
  obtain ⟨some, span, us, vs, split, some', bases, members, before, behind, entry⟩ := h
  refine ⟨some, alike.span ▸ span, us, vs, split, some', bases.congr alike.bases,
    members.congr alike.members, alike.entry ▸ before, alike.entry ▸ alike.span ▸ behind, ?_⟩
  exact entry.imp (And.imp_left alike.none) fun start => alike.entry ▸ start

end Contracts

namespace Typing

variable (scope : Scope) (s : Surroundings) (locals : Locals)

mutual
/-- Typing adds notes alone. -/
theorem forget_annotate : (e : Expr α) → (annotate scope e).forget = e.forget
  | .identifier .. | .number .. | .string .. | .bool .. | .elementary .. | .new .. => rfl
  | .binary _ _ l r | .assign _ _ l r => by
      simp [annotate, Expr.forget, forget_annotate l, forget_annotate r]
  | .unary _ _ _ e | .member _ e _ | .index _ e none => by
      simp [annotate, Expr.forget, forget_annotate e]
  | .index _ e (some k) => by
      simp [annotate, Expr.forget, forget_annotate e, forget_annotate k]
  | .call _ callee args _ => by
      simp [annotate, Expr.forget, forget_annotate callee, forget_annotateAll args]
  | .conditional _ c t f => by
      simp [annotate, Expr.forget, forget_annotate c, forget_annotate t, forget_annotate f]
  | .tuple _ es => by simp [annotate, Expr.forget, forget_annotateAll es]

theorem forget_annotateAll : (es : List (Expr α)) →
    Expr.forgetAll (annotateAll scope es) = Expr.forgetAll es
  | [] => rfl
  | e :: es => by simp [annotateAll, Expr.forgetAll, forget_annotate e, forget_annotateAll es]
end

@[simp] theorem forget_expr (e : Expr α) : (s.expr locals e).forget = e.forget :=
  forget_annotate _ e

@[simp] theorem map_forget_expr (es : List (Expr α)) :
    (es.map (s.expr locals)).map Expr.forget = es.map Expr.forget := by
  simp

@[simp] theorem mapRoots_forget_var (v : Variable α) :
    (s.var locals v).mapRoots Expr.forget = v.mapRoots Expr.forget := by
  cases h : v.value <;> simp [Surroundings.var, Variable.mapRoots, h]

mutual
theorem mapRoots_forget_stmt (locals : Locals) : (st : Stmt α) →
    (s.stmt locals st).1.mapRoots Expr.forget = st.mapRoots Expr.forget
  | .block _ body => by
      simp [Surroundings.stmt, Stmt.mapRoots, mapRoots_forget_body _ body]
  | .declare _ v => by simp [Surroundings.stmt, Stmt.mapRoots]
  | .expression _ e | .emit _ e => by simp [Surroundings.stmt, Stmt.mapRoots]
  | .if _ c t none => by
      simp [Surroundings.stmt, Stmt.mapRoots, mapRoots_forget_stmt locals t]
  | .if _ c t (some f) => by
      simp [Surroundings.stmt, Stmt.mapRoots, mapRoots_forget_stmt _ t, mapRoots_forget_stmt _ f]
  | .while _ c b => by
      simp [Surroundings.stmt, Stmt.mapRoots, mapRoots_forget_stmt _ b]
  | .doWhile _ b c => by
      simp [Surroundings.stmt, Stmt.mapRoots, mapRoots_forget_stmt _ b]
  | .for _ none c step b => by
      cases c <;> cases step <;> simp [Surroundings.stmt, Stmt.mapRoots, mapRoots_forget_stmt _ b]
  | .for _ (some i) c step b => by
      cases c <;> cases step <;>
        simp [Surroundings.stmt, Stmt.mapRoots, mapRoots_forget_stmt _ i, mapRoots_forget_stmt _ b]
  | .return _ value => by cases value <;> simp [Surroundings.stmt, Stmt.mapRoots]
  | .break _ | .continue _ | .throw _ => by simp [Surroundings.stmt, Stmt.mapRoots]

theorem mapRoots_forget_body (locals : Locals) : (body : List (Stmt α)) →
    Stmt.mapRootsAll Expr.forget (s.body locals body) = Stmt.mapRootsAll Expr.forget body
  | [] => rfl
  | st :: rest => by
      simp [Surroundings.body, Stmt.mapRootsAll, mapRoots_forget_stmt _ st, mapRoots_forget_body _ rest]
end

theorem mapRoots_forget_member (m : Member α) :
    (s.member m).mapRoots Expr.forget = m.mapRoots Expr.forget := by
  cases m with
  | function f =>
      cases h : f.body <;>
        simp [Surroundings.member, Surroundings.function, Member.mapRoots, FunctionDef.mapRoots, h,
          Invocation.mapRoots, Surroundings.block, Block.mapRoots, mapRoots_forget_body,
          Function.comp_def]
  | modifier m =>
      simp [Surroundings.member, Surroundings.modifier, Member.mapRoots, Surroundings.block,
        Block.mapRoots, mapRoots_forget_body]
  | state v => simp [Surroundings.member, Member.mapRoots]
  | _ => rfl

theorem mapRoots_forget_contractDef (c : Contract α) :
    (s.contractDef c).mapRoots Expr.forget = c.mapRoots Expr.forget := by
  have bases : ∀ b : Base α, (s.base b).mapRoots Expr.forget = b.mapRoots Expr.forget := by
    intro b
    cases h : b.args <;> simp [Surroundings.base, Base.mapRoots, h]
  simp [Surroundings.contractDef, Contract.mapRoots, mapRoots_forget_member, bases]

end Typing

end SafeSubset
