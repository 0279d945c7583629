import SafeSubset.Proofs.Syntax.Sites
import SafeSubset.Typing.SourceUnit

/-! What is visible where an expression is typed. At each site of a typed contract the local
variables are those whose names the site gives, so any other name is the contract's. -/
namespace SafeSubset.Typing

variable {α : Type} {s : Surroundings} {locals : Locals} {visible : List String}

namespace Locals

theorem lookup_cons (block : List (String × Ty)) (locals : Locals) (name : String) :
    lookup (block :: locals) name = (block.lookup name).or (lookup locals name) := by
  rw [lookup, List.findSome?_cons]
  cases block.lookup name <;> rfl

theorem lookup_declare (some : locals ≠ []) (declared name : String) (t : Ty) :
    (locals.declare declared t).lookup name =
      if name = declared then .some t else locals.lookup name := by
  cases locals with
  | nil => contradiction
  | cons block outer =>
      rw [declare, lookup_cons, lookup_cons]
      by_cases same : name = declared
      · simp [same]
      · have other : (name == declared) = false := by simpa using same
        simp [List.lookup_cons, same, other]

end Locals

/-- The local variables are those with the given names. -/
structure Shows (locals : Locals) (visible : List String) : Prop where
  lookup : ∀ name, (locals.lookup name).isSome = true ↔ name ∈ visible

/-- There is a block to which variables can be added. -/
structure ShowsInside (locals : Locals) (visible : List String) : Prop
    extends Shows locals visible where
  some : locals ≠ []

theorem Shows.none : Shows [] [] := ⟨by simp [Locals.lookup]⟩

theorem Shows.block (shows : Shows locals visible) : ShowsInside ([] :: locals) visible where
  lookup name := by rw [Locals.lookup_cons, List.lookup_nil, Option.none_or, shows.lookup]
  some := List.cons_ne_nil [] locals

/-- A name that is not visible is not a local variable's. -/
theorem Shows.lookup_eq_none (shows : Shows locals visible) {name : String} (hidden : name ∉ visible) :
    locals.lookup name = .none := by
  rw [← Option.not_isSome_iff_eq_none, shows.lookup]
  exact hidden

theorem ShowsInside.declare (shows : ShowsInside locals visible) (name : String) (t : Ty) :
    ShowsInside (locals.declare name t) (name :: visible) where
  lookup other := by
    rw [Locals.lookup_declare shows.some, List.mem_cons, ← shows.lookup]
    by_cases same : other = name <;> simp [same]
  some := by
    cases locals with
    | nil => exact absurd rfl shows.some
    | cons block outer => exact List.cons_ne_nil _ outer

theorem ShowsInside.congr {visible' : List String} (shows : ShowsInside locals visible)
    (same : ∀ name, name ∈ visible ↔ name ∈ visible') : ShowsInside locals visible' where
  lookup name := (shows.lookup name).trans (same name)
  some := shows.some

/-- Where each parameter adds its own name, all of them add theirs. -/
theorem ShowsInside.foldl {add : Locals → Parameter → Locals}
    (one : ∀ {locals visible} (p : Parameter), ShowsInside locals visible →
      ShowsInside (add locals p) (parameterNames [p] ++ visible))
    (ps : List Parameter) (shows : ShowsInside locals visible) :
    ShowsInside (ps.foldl add locals) (parameterNames ps ++ visible) := by
  induction ps generalizing locals visible with
  | nil => exact shows
  | cons p ps ih =>
      refine (ih (one p shows)).congr fun name => ?_
      have front : parameterNames (p :: ps) = parameterNames [p] ++ parameterNames ps :=
        List.filterMap_append (l := [p])
      rw [front, List.mem_append, List.mem_append, List.mem_append, List.mem_append, or_left_comm,
        or_assoc]

/-- The named parameters of a function are visible in it. -/
theorem shows_parameters (s : Surroundings) (ps : List Parameter) :
    ShowsInside (s.parameters ps) (parameterNames ps) := by
  rw [← List.append_nil (parameterNames ps)]
  refine Shows.none.block.foldl ?_ ps
  intro locals visible p shows
  cases named : p.name with
  | none => simpa [parameterNames, named] using shows
  | some name =>
      simpa [parameterNames, named] using shows.declare name.text (s.file.resolve p.type)

/-- An expression that has been typed where the local variables are the visible ones. -/
def Surroundings.Types (α : Type) (s : Surroundings) (site : Site Ty) : Prop :=
  ∃ (locals : Locals) (e : Expr α), Shows locals site.1 ∧ site.2 = s.expr locals e

theorem types_expr (shows : Shows locals visible) (e : Expr α) :
    s.Types α (visible, s.expr locals e) := ⟨locals, e, shows, rfl⟩

theorem types_seeing (shows : Shows locals visible) (es : List (Expr α)) :
    ∀ site ∈ seeing visible (es.map (s.expr locals)), s.Types α site := by
  intro site member
  obtain ⟨d, inside, rfl⟩ := List.mem_map.1 member
  obtain ⟨e, -, rfl⟩ := List.mem_map.1 inside
  exact types_expr shows e

theorem types_optional (shows : Shows locals visible) (e : Option (Expr α)) :
    ∀ site ∈ seeing visible (e.map (s.expr locals)).toList, s.Types α site := by
  rw [Option.toList_map]
  exact types_seeing shows e.toList

theorem types_options (shows : Shows locals visible) (e d : Option (Expr α)) :
    ∀ site ∈ seeing visible ((e.map (s.expr locals)).toList ++ (d.map (s.expr locals)).toList),
      s.Types α site := by
  rw [Option.toList_map, Option.toList_map, ← List.map_append]
  exact types_seeing shows (e.toList ++ d.toList)

theorem declared_stmt (s : Surroundings) (locals : Locals) : (st : Stmt α) →
    (s.stmt locals st).1.declared = st.declared
  | .if _ _ t none => declared_stmt s locals t
  | .if _ _ t (some f) => by
      simp [Surroundings.stmt, Stmt.declared, declared_stmt s locals t, declared_stmt s _ f]
  | .while _ _ b | .doWhile _ b _ => declared_stmt s locals b
  | .declare .. => rfl
  | .for _ none .. | .for _ (some _) .. => rfl
  | .block .. | .expression .. | .return .. | .emit .. | .break _ | .continue _ | .throw _ => rfl

/-- Behind a statement the variables that it declares are visible, too. -/
theorem shows_stmt (s : Surroundings) {locals : Locals} {visible : List String}
    (shows : ShowsInside locals visible) : (st : Stmt α) →
      ShowsInside (s.stmt locals st).2 (st.declared ++ visible)
  | .declare _ v => shows.declare v.name.text _
  | .if _ _ t none => shows_stmt s shows t
  | .if _ _ t (some f) => by
      simpa [Surroundings.stmt, Stmt.declared] using shows_stmt s (shows_stmt s shows t) f
  | .while _ _ b | .doWhile _ b _ => shows_stmt s shows b
  | .for _ none .. | .for _ (some _) .. => shows
  | .block .. | .expression .. | .return .. | .emit .. | .break _ | .continue _ | .throw _ => shows

mutual
/-- Every expression of a statement is typed where the variables that its site gives are the
local ones. -/
theorem types_stmt (s : Surroundings) {locals : Locals} {visible : List String}
    (shows : ShowsInside locals visible) : (st : Stmt α) →
      ∀ site ∈ (s.stmt locals st).1.sites visible, s.Types α site
  | .block _ body => types_body s shows.block body
  | .declare _ v => types_optional shows.toShows v.value
  | .expression _ e | .emit _ e => types_seeing shows.toShows [e]
  | .if _ c t none => by
      simpa only [Surroundings.stmt, Stmt.sites, List.forall_mem_cons] using
        ⟨types_expr shows.toShows c, types_stmt s shows t⟩
  | .if _ c t (some f) => by
      have onFalse := types_stmt s (shows_stmt s shows t) f
      simpa only [Surroundings.stmt, Stmt.sites, declared_stmt, List.forall_mem_cons,
        List.forall_mem_append] using
        ⟨types_expr shows.toShows c, types_stmt s shows t, onFalse⟩
  | .while _ c b => by
      simpa only [Surroundings.stmt, Stmt.sites, List.forall_mem_cons] using
        ⟨types_expr shows.toShows c, types_stmt s shows b⟩
  | .doWhile _ b c => by
      simpa only [Surroundings.stmt, Stmt.sites, List.forall_mem_append, List.forall_mem_singleton]
        using ⟨types_stmt s shows b, types_expr shows.toShows c⟩
  | .for _ none c step b => by
      have inner := shows.toShows.block
      simpa only [Surroundings.stmt, Stmt.sites, List.forall_mem_append] using
        ⟨types_options inner.toShows c step, types_stmt s inner b⟩
  | .for _ (some i) c step b => by
      have inner := shows.toShows.block
      have behind := shows_stmt s inner i
      simpa only [Surroundings.stmt, Stmt.sites, declared_stmt, List.forall_mem_append] using
        ⟨⟨types_stmt s inner i, types_options behind.toShows c step⟩, types_stmt s behind b⟩
  | .return _ value => types_optional shows.toShows value
  | .break _ | .continue _ | .throw _ => by simp [Surroundings.stmt, Stmt.sites]

theorem types_body (s : Surroundings) {locals : Locals} {visible : List String}
    (shows : ShowsInside locals visible) : (body : List (Stmt α)) →
      ∀ site ∈ Stmt.sitesAll visible (s.body locals body), s.Types α site
  | [] => by simp [Surroundings.body, Stmt.sitesAll]
  | st :: rest => by
      have first := types_stmt s shows st
      have others := types_body s (shows_stmt s shows st) rest
      simpa only [Surroundings.body, Stmt.sitesAll, declared_stmt, List.mem_append, or_imp,
        forall_and] using ⟨first, others⟩
end

theorem types_member (s : Surroundings) (m : Member α) :
    ∀ site ∈ (s.member m).sites, s.Types α site := by
  cases m with
  | state v => exact types_optional .none v.value
  | modifier m => exact types_body s (shows_parameters s m.params).toShows.block m.body.body
  | function f =>
      have shows := shows_parameters s (f.params ++ f.returns)
      have args : (s.function f).modifiers.flatMap Invocation.args =
          (f.modifiers.flatMap Invocation.args).map (s.expr (s.parameters (f.params ++ f.returns))) := by
        simp [Surroundings.function, List.flatMap_map, List.map_flatMap]
      refine List.forall_mem_append.2 ⟨?_, ?_⟩
      · rw [args]
        exact types_seeing shows.toShows _
      · cases body : f.body with
        | none => simp [Surroundings.function, body]
        | some b =>
            simp only [Surroundings.function, body, Option.map_some, Option.getD_some]
            exact types_body s shows.toShows.block b.body
  | _ => simp [Surroundings.member, Member.sites]

/-- At each site of a typed contract the local variables are the visible ones. -/
theorem types_contractDef (s : Surroundings) (c : Contract α) :
    ∀ site ∈ (s.contractDef c).sites, s.Types α site := by
  refine List.forall_mem_append.2 ⟨?_, ?_⟩
  · intro site member
    obtain ⟨b, inside, member⟩ := List.mem_flatMap.1 member
    obtain ⟨b, -, rfl⟩ := List.mem_map.1 inside
    have roots : (s.base b).roots = b.roots.map (s.expr []) := by
      cases args : b.args <;> simp [Surroundings.base, Base.roots, args]
    rw [Base.sites, roots] at member
    exact types_seeing .none b.roots site member
  · intro site member
    obtain ⟨m, inside, member⟩ := List.mem_flatMap.1 member
    obtain ⟨m, -, rfl⟩ := List.mem_map.1 inside
    exact types_member s m site member

end SafeSubset.Typing
