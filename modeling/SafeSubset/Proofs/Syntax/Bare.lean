import SafeSubset.Proofs.Syntax.Roots

/-! Syntax without its places. Two pieces of syntax are alike up to places and
types where nothing else is left of them than the same. -/
namespace SafeSubset

variable {α : Type}

def Ident.bare (i : Ident) : Ident := ⟨i.text, .point 0⟩

def Path.bare (p : Path) : Path := ⟨p.qualifiers.map Ident.bare, p.name.bare⟩

def TypeName.bare : TypeName → TypeName
  | elementary _ t => .elementary (.point 0) t
  | user _ p => .user (.point 0) p.bare
  | mapping _ k v => .mapping (.point 0) k.bare v.bare
  | array _ element length => .array (.point 0) element.bare length

/-- What a node carries when it stands nowhere and has no type. -/
def Info.bare : Info Unit := ⟨.point 0, ()⟩

mutual
def Expr.bare : Expr α → Expr Unit
  | .identifier _ n => .identifier .bare n
  | .number _ t => .number .bare t
  | .string _ t => .string .bare t
  | .bool _ b => .bool .bare b
  | .elementary _ t => .elementary .bare t
  | .binary _ op l r => .binary .bare op l.bare r.bare
  | .unary _ op fixity e => .unary .bare op fixity e.bare
  | .assign _ op l r => .assign .bare op l.bare r.bare
  | .call _ callee args names => .call .bare callee.bare (Expr.bares args) (names.map Ident.bare)
  | .member _ base m => .member .bare base.bare m.bare
  | .index _ base none => .index .bare base.bare none
  | .index _ base (some k) => .index .bare base.bare (some k.bare)
  | .conditional _ c t f => .conditional .bare c.bare t.bare f.bare
  | .tuple _ es => .tuple .bare (Expr.bares es)
  | .new _ t => .new .bare t.bare

def Expr.bares : List (Expr α) → List (Expr Unit)
  | [] => []
  | e :: es => e.bare :: Expr.bares es
end

theorem Expr.bares_eq (es : List (Expr α)) : bares es = es.map bare := by
  induction es with
  | nil => rfl
  | cons e es ih => simp [bares, ih]

theorem Ident.map_bare_congr {is js : List Ident} (same : is.map (·.text) = js.map (·.text)) :
    is.map Ident.bare = js.map Ident.bare := by
  have own : (Ident.bare : Ident → Ident) = (fun s => ⟨s, .point 0⟩) ∘ (·.text) := rfl
  rw [own, ← List.map_map, ← List.map_map, same]

theorem Path.bare_congr {p q : Path}
    (same : p.components.map (·.text) = q.components.map (·.text)) : p.bare = q.bare := by
  have bares := Ident.map_bare_congr same
  simp only [components, List.map_append, List.map_singleton] at bares
  obtain ⟨qualifiers, name⟩ := List.append_inj' bares rfl
  simp only [bare, qualifiers, List.head_eq_of_cons_eq name]

end SafeSubset
