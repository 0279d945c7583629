import SafeSubset.Proofs.Grammar.Language
import SafeSubset.Proofs.Syntax.Roots
import Mathlib.Data.List.Forall2

/-! How expressions are laid out as tokens. The tokens of a node itself stand in
groups before, between and behind its parts. Nodes have levels by how loosely
they bind, and a part that binds too loosely for its place cannot stand there. -/
namespace SafeSubset

open Token (Kind Mark Keyword Spaced width extent core)

variable {α : Type}

def BinaryOp.mark : BinaryOp → Mark
  | power => .starStar
  | multiply => .star
  | divide => .slash
  | modulo => .percent
  | add => .plus
  | subtract => .minus
  | shiftLeft => .shiftLeft
  | shiftRight => .shiftRight
  | bitAnd => .amp
  | bitXor => .caret
  | bitOr => .pipe
  | less => .less
  | greater => .greater
  | lessEqual => .lessEqual
  | greaterEqual => .greaterEqual
  | equal => .equal
  | notEqual => .notEqual
  | and => .ampAmp
  | or => .pipePipe

def BinaryOp.level : BinaryOp → Nat
  | power => 2
  | multiply | divide | modulo => 3
  | add | subtract => 4
  | shiftLeft | shiftRight => 5
  | bitAnd => 6
  | bitXor => 7
  | bitOr => 8
  | less | greater | lessEqual | greaterEqual => 9
  | equal | notEqual => 10
  | and => 11
  | or => 12

def AssignOp.mark : AssignOp → Mark
  | assign => .assign
  | add => .plusAssign
  | subtract => .minusAssign
  | multiply => .starAssign
  | divide => .slashAssign
  | modulo => .percentAssign
  | bitOr => .pipeAssign
  | bitXor => .caretAssign
  | bitAnd => .ampAssign
  | shiftLeft => .shiftLeftAssign
  | shiftRight => .shiftRightAssign

def UnaryOp.kind : UnaryOp → Kind
  | not => .mark .bang
  | negate => .mark .minus
  | bitNot => .mark .tilde
  | increment => .mark .plusPlus
  | decrement => .mark .minusMinus
  | delete => .keyword .delete

/-- How loosely a node binds: a suffix or an atom not at all, then prefix
operators, the binary operators, the conditional, and assignment. -/
def Expr.level : Expr α → Nat
  | .unary _ _ .before _ => 1
  | .binary _ op _ _ => op.level
  | .conditional .. => 13
  | .assign .. => 14
  | _ => 0

/-- The components of a path behind the first. -/
def DottedNames : List String → List Spaced → Prop
  | [], ts => ts = []
  | n :: ns, ts =>
      ∃ d t rest, ts = d :: t :: rest ∧ d.kind = .mark .dot ∧ t.kind = .identifier ∧
        String.ofList t.chars = n ∧ DottedNames ns rest

/-- The tokens that write a type. -/
inductive TypeName.Written : TypeName → List Spaced → Prop where
  | elementary {s : Span} {type : Ty} {t : Spaced} (kind : t.kind = .identifier)
      (named : Ty.ofName? (String.ofList t.chars) = some type) : Written (.elementary s type) [t]
  | payable {s : Span} {type : Ty} {t p : Spaced} (kind : t.kind = .identifier)
      (named : Ty.ofName? (String.ofList t.chars) = some type)
      (payable : p.kind = .keyword .payable) : Written (.elementary s type) [t, p]
  | user {s : Span} {path : Path} {ns : List String} {t : Spaced} {ts : List Spaced}
      (kind : t.kind = .identifier) (own : Ty.ofName? (String.ofList t.chars) = none)
      (components : path.components.map (·.text) = String.ofList t.chars :: ns)
      (dotted : DottedNames ns ts) : Written (.user s path) (t :: ts)
  | mapping {s : Span} {key value : TypeName} {m a b c : Spaced} {ks vs : List Spaced}
      (kinds : [m, a, b, c].map Spaced.kind =
        [.keyword .mapping, .mark .openParen, .mark .arrow, .mark .closeParen])
      (writtenKey : key.Written ks) (writtenValue : value.Written vs) :
      Written (.mapping s key value) (m :: a :: ks ++ b :: vs ++ [c])
  | array {s : Span} {element : TypeName} {a b : Spaced} {es : List Spaced}
      (written : element.Written es)
      (kinds : [a, b].map Spaced.kind = [.mark .openBracket, .mark .closeBracket]) :
      Written (.array s element none) (es ++ [a, b])
  | sized {s : Span} {element : TypeName} {a n b : Spaced} {es : List Spaced}
      (written : element.Written es)
      (kinds : [a, n, b].map Spaced.kind = [.mark .openBracket, .number, .mark .closeBracket]) :
      Written (.array s element (some (String.ofList n.chars))) (es ++ [a, n, b])

theorem TypeName.Written.ne_nil {t : TypeName} {ts : List Spaced} (h : t.Written ts) :
    ts ≠ [] := by
  cases h <;> simp

/-- Whether a type ends before some tokens: they do not go on with brackets or,
behind a name, with a dot. -/
def TypeName.Ends (t : TypeName) (rest : List Spaced) : Prop :=
  (∀ a b more, rest = a :: b :: more → a.kind = .mark .openBracket →
      b.kind ≠ .mark .closeBracket) ∧
    (∀ a n b more, rest = a :: n :: b :: more → a.kind = .mark .openBracket →
      n.kind = .number → b.kind ≠ .mark .closeBracket) ∧
    ∀ s p, t = .user s p → ∀ d n more, rest = d :: n :: more → d.kind = .mark .dot →
      n.kind ≠ .identifier

/-- The tokens before an argument: its name, if arguments are named. -/
def Lead : Option String → List Spaced → Prop
  | none, ts => ts = []
  | some n, ts =>
      ∃ t c, ts = [t, c] ∧ t.kind = .identifier ∧ String.ofList t.chars = n ∧
        c.kind = .mark .colon

/-- The groups of a list behind its first item, given the names of the others. -/
def ListTail (closing : List Kind) : List (Option String) → List (List Spaced) → Prop
  | [], gs => ∃ g, gs = [g] ∧ g.map Spaced.kind = closing
  | n :: ns, gs =>
      ∃ t lead rest, gs = (t :: lead) :: rest ∧ t.kind = .mark .comma ∧ Lead n lead ∧
        ListTail closing ns rest

/-- The groups of a list with commas. -/
def Listed (opening closing : List Kind) : List (Option String) → List (List Spaced) → Prop
  | [], gs => ∃ g, gs = [g] ∧ g.map Spaced.kind = opening ++ closing
  | n :: ns, gs =>
      ∃ g lead rest, gs = (g ++ lead) :: rest ∧ g.map Spaced.kind = opening ∧ Lead n lead ∧
        ListTail closing ns rest

/-- The groups of a node's own tokens. -/
def Expr.Groups : Expr α → List (List Spaced) → Prop
  | .identifier _ n, gs =>
      ∃ t, gs = [[t]] ∧ t.kind = .identifier ∧ String.ofList t.chars = n ∧ Ty.ofName? n = none
  | .number _ s, gs =>
      (∃ t, gs = [[t]] ∧ t.kind = .number ∧ String.ofList t.chars = s) ∨
        ∃ t u, gs = [[t, u]] ∧ t.kind = .number ∧ u.kind = .identifier ∧
          String.ofList u.chars ∈ Grammar.Phrase.unitWords ∧ String.ofList (core [t, u]) = s
  | .string _ s, gs =>
      ∃ t, gs = [[t]] ∧ t.kind = .string ∧ Grammar.Phrase.unquoted (String.ofList t.chars) = s
  | .bool _ b, gs => ∃ t, gs = [[t]] ∧ t.kind = .keyword (if b then .true else .false)
  | .elementary _ type, gs =>
      ∃ t, gs = [[t]] ∧
        (t.kind = .identifier ∧ Ty.ofName? (String.ofList t.chars) = some type ∨
          t.kind = .keyword .payable ∧ type = .address)
  | .new _ type, gs => ∃ t ts, gs = [t :: ts] ∧ t.kind = .keyword .new ∧ type.Written ts
  | .binary _ op _ _, gs => ∃ t, gs = [[], [t], []] ∧ t.kind = .mark op.mark
  | .assign _ op _ _, gs => ∃ t, gs = [[], [t], []] ∧ t.kind = .mark op.mark
  | .unary _ op .before _, gs => ∃ t, gs = [[t], []] ∧ t.kind = op.kind
  | .unary _ op .after _, gs =>
      ∃ t, gs = [[], [t]] ∧ t.kind = op.kind ∧ (op = .increment ∨ op = .decrement)
  | .call _ _ args names, gs =>
      ∃ rest, gs = [] :: rest ∧
        (names = [] ∧
            Listed [.mark .openParen] [.mark .closeParen] (args.map fun _ => none) rest ∨
          names.length = args.length ∧
            Listed [.mark .openParen, .mark .openBrace] [.mark .closeBrace, .mark .closeParen]
              (names.map fun n => some n.text) rest)
  | .member _ _ m, gs =>
      ∃ d t, gs = [[], [d, t]] ∧ d.kind = .mark .dot ∧ t.kind = .identifier ∧
        String.ofList t.chars = m.text
  | .index _ _ none, gs =>
      ∃ g, gs = [[], g] ∧ g.map Spaced.kind = [.mark .openBracket, .mark .closeBracket]
  | .index _ _ (some _), gs =>
      ∃ a b, gs = [[], [a], [b]] ∧ a.kind = .mark .openBracket ∧ b.kind = .mark .closeBracket
  | .conditional _ _ _ _, gs =>
      ∃ a b, gs = [[], [a], [b], []] ∧ a.kind = .mark .question ∧ b.kind = .mark .colon
  | .tuple _ es, gs => Listed [.mark .openParen] [.mark .closeParen] (es.map fun _ => none) gs

/-- The type that is created, where the expression is nothing but a creation. -/
def Expr.created? : Expr α → Option TypeName
  | .new _ t => some t
  | _ => none

/-- Whether each part binds tightly enough for its place. A name behind `new`
goes on through dots, and a type through brackets. -/
def Expr.Fits : Expr α → Prop
  | .binary _ op l r => l.level ≤ op.level ∧ r.level < op.level
  | .unary _ _ .before e => e.level ≤ 1
  | .unary _ _ .after e => e.level = 0
  | .assign _ _ l _ => l.level ≤ 12
  | .call _ callee _ _ => callee.level = 0
  | .member _ base _ => base.level = 0 ∧ ∀ s p, base.created? ≠ some (.user s p)
  | .index _ base none => base.level = 0 ∧ base.created? = none
  | .index _ base (some _) => base.level = 0
  | .conditional _ c _ _ => c.level ≤ 12
  | _ => True

/-- Whether the tokens of the parts can be told from those of the node. A number
alone in brackets behind a type is the length of an array. -/
def Expr.Apart : Expr α → List (List Spaced) → Prop
  | .index _ base (some _), parts =>
      base.created? = none ∨ ∀ b n, parts = [b, [n]] → n.kind ≠ .number
  | _, _ => True

section Weave

variable {ε : Type}

/-- Parts with groups of tokens before, between and behind them. Each part
stands for the tokens that `W` says. -/
inductive Weave (W : Nat → ε → List Spaced → Prop) :
    Nat → List (List Spaced) → List (ε × List Spaced) → List Spaced → Prop where
  | last {o : Nat} {g : List Spaced} : Weave W o [g] [] g
  | part {o : Nat} (g us : List Spaced) {vs : List Spaced} {e : ε} {gs : List (List Spaced)}
      {parts : List (ε × List Spaced)} (written : W (o + width g) e us)
      (rest : Weave W (o + width g + width us) gs parts vs) :
      Weave W o (g :: gs) ((e, us) :: parts) (g ++ us ++ vs)

/-- Parts that stand among some tokens, in order and apart. -/
def Laid (W : Nat → ε → List Spaced → Prop) (o : Nat) (es : List ε) (ts : List Spaced) : Prop :=
  ∃ gs parts, Weave W o gs parts ts ∧ parts.map Prod.fst = es

variable {W : Nat → ε → List Spaced → Prop} {o : Nat} {gs : List (List Spaced)}
  {parts : List (ε × List Spaced)} {us vs : List Spaced} {e : ε} {es fs : List ε}

/-- A part at the left end. -/
theorem Weave.left (base : W o e us) (rest : Weave W (o + width us) gs parts vs) :
    Weave W o ([] :: gs) ((e, us) :: parts) (us ++ vs) := by
  have woven := Weave.part (W := W) (o := o) [] us (by simpa using base)
    (by simpa using rest)
  simpa using woven

theorem Weave.prepend (g : List Spaced) (weave : Weave W (o + width g) gs parts us) :
    ∃ gs, Weave W o gs parts (g ++ us) := by
  cases weave with
  | last => exact ⟨_, .last⟩
  | @part _ g' us vs e gs parts written rest =>
      have woven := Weave.part (W := W) (o := o) (g ++ g') us
        (by simpa [Nat.add_assoc] using written) (by simpa [Nat.add_assoc] using rest)
      exact ⟨_, by simpa using woven⟩

theorem Weave.append {gs' : List (List Spaced)} {parts' : List (ε × List Spaced)}
    (first : Weave W o gs parts us) (second : Weave W (o + width us) gs' parts' vs) :
    ∃ gs, Weave W o gs (parts ++ parts') (us ++ vs) := by
  induction first with
  | last => exact second.prepend _
  | @part o g us ws e gs parts written rest ih =>
      obtain ⟨gs'', woven⟩ := ih (by simpa [Nat.add_assoc] using second)
      exact ⟨g :: gs'', by simpa using Weave.part g us written woven⟩

/-- Other parts in the place of the parts. -/
theorem Weave.transfer {ε' : Type} {W' : Nat → ε' → List Spaced → Prop} {R : ε → ε' → Prop}
    {es : List ε'} (step : ∀ o e e' us, R e e' → W o e us → W' o e' us)
    (related : List.Forall₂ R (parts.map Prod.fst) es) (weave : Weave W o gs parts us) :
    ∃ parts', Weave W' o gs parts' us ∧ parts'.map Prod.fst = es ∧
      parts'.map Prod.snd = parts.map Prod.snd := by
  induction weave generalizing es with
  | last =>
      cases related
      exact ⟨[], .last, rfl, rfl⟩
  | part g us written rest ih =>
      cases related with
      | cons first others =>
          obtain ⟨parts', woven, same, tokens⟩ := ih others
          exact ⟨_ :: parts', .part _ _ (step _ _ _ _ first written) woven, by simp [same], by simp [tokens]⟩

theorem Laid.transfer {ε' : Type} {W' : Nat → ε' → List Spaced → Prop} {R : ε → ε' → Prop}
    {es' : List ε'} (step : ∀ o e e' us, R e e' → W o e us → W' o e' us)
    (related : List.Forall₂ R es es') (laid : Laid W o es us) : Laid W' o es' us := by
  obtain ⟨gs, parts, weave, rfl⟩ := laid
  obtain ⟨parts', woven, same, -⟩ := weave.transfer step related
  exact ⟨gs, parts', woven, same⟩

theorem Laid.nil (o : Nat) (ts : List Spaced) : Laid W o [] ts := ⟨[ts], [], .last, rfl⟩

theorem Laid.single (h : W o e us) : Laid W o [e] us := by
  have woven := Weave.left h (.last (g := []))
  rw [List.append_nil] at woven
  exact ⟨_, _, woven, rfl⟩

theorem Laid.append (first : Laid W o es us) (second : Laid W (o + width us) fs vs) :
    Laid W o (es ++ fs) (us ++ vs) := by
  obtain ⟨_, _, weave, rfl⟩ := first
  obtain ⟨_, _, weave', rfl⟩ := second
  obtain ⟨gs, woven⟩ := weave.append weave'
  exact ⟨gs, _, woven, by simp⟩

end Weave

/-- The tokens that write an expression where they start at an offset. What the
places of nodes are is left open. -/
inductive Expr.Written (place : Span → Nat → List Spaced → Prop) :
    Nat → Expr α → List Spaced → Prop where
  | node {o : Nat} {e : Expr α} (gs : List (List Spaced)) (parts : List (Expr α × List Spaced))
      {ts : List Spaced} (groups : e.Groups gs) (fits : e.Fits) (placed : place e.span o ts)
      (apart : e.Apart (parts.map Prod.snd)) (children : parts.map Prod.fst = e.children)
      (weave : Weave (Expr.Written place) o gs parts ts) : e.Written place o ts

/-- A node without parts is written by one group. -/
theorem Expr.Written.leaf {place : Span → Nat → List Spaced → Prop} {o : Nat} {e : Expr α}
    {ts : List Spaced} (groups : e.Groups [ts]) (fits : e.Fits) (placed : place e.span o ts)
    (children : e.children = []) : e.Written place o ts := by
  refine .node _ [] groups fits placed ?_ children.symm .last
  cases e with
  | index i base k => cases k <;> cases children
  | _ => trivial

theorem Listed.ne_nil {opening closing : List Kind} {names : List (Option String)}
    {gs : List (List Spaced)} (h : Listed opening closing names gs) : gs ≠ [] := by
  cases names with
  | nil =>
      obtain ⟨g, rfl, -⟩ := h
      simp
  | cons n ns =>
      obtain ⟨g, lead, rest, rfl, -⟩ := h
      simp

/-- A node that is one group has a token. -/
theorem Expr.Groups.ne_nil {e : Expr α} {g : List Spaced} (h : e.Groups [g]) : g ≠ [] := by
  rintro rfl
  cases e with
  | unary i op fixity e => cases fixity <;> simp [Groups] at h
  | index i base k => cases k <;> simp [Groups] at h
  | tuple i es => cases es <;> simp [Groups, Listed] at h
  | call i callee args names =>
      obtain ⟨rest, same, h⟩ := h
      cases same
      exact h.elim (fun h => h.2.ne_nil rfl) fun h => h.2.ne_nil rfl
  | _ => simp [Groups] at h

theorem Expr.Written.ne_nil {place : Span → Nat → List Spaced → Prop} {o : Nat} {e : Expr α}
    {ts : List Spaced} (h : e.Written place o ts) : ts ≠ [] := by
  induction e using Expr.induction_children generalizing o ts with
  | node e ih =>
      obtain ⟨gs, parts, groups, -, -, -, children, weave⟩ := h
      cases weave with
      | last => exact groups.ne_nil
      | part g us written rest =>
          have some := ih _ (children ▸ List.mem_cons_self) written
          simp [some]

/-- The tokens that write an expression, with the place of every node. -/
abbrev Expr.Located : Nat → Expr α → List Spaced → Prop :=
  Expr.Written fun s o ts => s = extent o ts

end SafeSubset
