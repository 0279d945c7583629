import SafeSubset.Proofs.Grammar.Completeness
import SafeSubset.Proofs.Grammar.File
import SafeSubset.Proofs.Grammar.Nested

/-! The trees of the grammar for expressions. Every tree that is read off a text has
its parts in the order of precedence, and every tree with its parts in this order is
what its tokens are read as, with no parentheses but those of its tuples. -/
namespace SafeSubset

open Token (Kind Keyword Mark Spaced Holds lexemes textOf)

variable {α : Type}

section Tokens

/-- A mark with nothing before it. -/
def Token.Mark.alone (m : Mark) : Spaced := ⟨[], .mark m, m.text.toList, by cases m <;> decide⟩

/-- A keyword with nothing before it. -/
def Token.Keyword.alone (k : Keyword) : Spaced :=
  ⟨[], .keyword k, k.text.toList, by cases k <;> decide⟩

/-- A token of an open class with nothing before it. -/
def Token.Spaced.alone (kind : Kind) (text : String) (some : text ≠ "") : Spaced :=
  ⟨[], kind, text.toList, by simpa using some⟩

def UnaryOp.alone (op : UnaryOp) : Spaced :=
  .alone op.kind op.kind.text (by cases op <;> decide)

end Tokens

/-- The types that can be written: elementary ones have a name, and no other name
begins with that of an elementary one. -/
def TypeName.Nameable : TypeName → Prop
  | elementary _ t => ∃ n, Ty.ofName? n = some t
  | user _ p =>
      (∀ c ∈ p.components, c.text ≠ "") ∧ ∀ c ∈ p.components.head?, Ty.ofName? c.text = none
  | mapping _ k v => k.Nameable ∧ v.Nameable
  | array _ t length => t.Nameable ∧ length ≠ some ""

theorem dottedNames_exists {ns : List String} (some : ∀ n ∈ ns, n ≠ "") : ∃ ts, DottedNames ns ts := by
  induction ns with
  | nil => exact ⟨[], rfl⟩
  | cons n ns ih =>
      obtain ⟨ts, dotted⟩ := ih fun m member => some m (List.mem_cons_of_mem n member)
      have named := some n List.mem_cons_self
      exact ⟨Mark.dot.alone :: .alone .identifier n named :: ts, _, _, _, rfl, rfl, rfl,
        String.ofList_toList, dotted⟩

theorem Ty.ne_empty_of_named {n : String} {type : Ty} (named : Ty.ofName? n = some type) : n ≠ "" := by
  rintro rfl
  cases named

theorem TypeName.Nameable.written {t : TypeName} (h : t.Nameable) : ∃ ts, t.Written ts := by
  induction t with
  | elementary s type =>
      obtain ⟨n, named⟩ := h
      have spelled : Ty.ofName? (String.ofList n.toList) = type := by simpa using named
      exact ⟨[.alone .identifier n (Ty.ne_empty_of_named named)], .elementary rfl spelled⟩
  | user s p =>
      obtain ⟨some, own⟩ := h
      obtain ⟨c, cs, components⟩ : ∃ c cs, p.components = c :: cs :=
        List.exists_cons_of_ne_nil (by simp [Path.components])
      rw [components] at some own
      have named : ∀ n ∈ cs.map (·.text), n ≠ "" := by
        simpa using fun m member => some m (List.mem_cons_of_mem c member)
      obtain ⟨ts, dotted⟩ := dottedNames_exists named
      refine ⟨.alone .identifier c.text (some c List.mem_cons_self) :: ts, .user rfl ?_ ?_ dotted⟩
      · simpa [Token.Spaced.alone] using own
      · simp [components, Token.Spaced.alone]
  | mapping s k v ihk ihv =>
      obtain ⟨ks, key⟩ := ihk h.1
      obtain ⟨vs, value⟩ := ihv h.2
      exact ⟨_, .mapping (m := Keyword.mapping.alone) (a := Mark.openParen.alone) (b := Mark.arrow.alone)
        (c := Mark.closeParen.alone) rfl key value⟩
  | array s t length ih =>
      obtain ⟨es, element⟩ := ih h.1
      cases length with
      | none => exact ⟨_, .array (a := Mark.openBracket.alone) (b := Mark.closeBracket.alone) element rfl⟩
      | some n =>
          have some : n ≠ "" := fun none => h.2 (none ▸ rfl)
          have sized := TypeName.Written.sized (s := s) (a := Mark.openBracket.alone)
            (n := .alone .number n some) (b := Mark.closeBracket.alone) element rfl
          exact ⟨_, by simpa [Token.Spaced.alone] using sized⟩

theorem lead_exists {n : Option String} (some : ∀ m, n = Option.some m → m ≠ "") : ∃ ts, Lead n ts := by
  cases n with
  | none => exact ⟨[], rfl⟩
  | some n => exact ⟨[.alone .identifier n (some n rfl), Mark.colon.alone], _, _, rfl, rfl, String.ofList_toList, rfl⟩

/-- Parts with as many groups around them as are needed. -/
theorem Weave.exists {ε : Type} {W : Nat → ε → List Spaced → Prop} {o : Nat} {gs : List (List Spaced)}
    {parts : List (ε × List Spaced)} (each : ∀ p ∈ parts, ∀ o, W o p.1 p.2)
    (length : gs.length = parts.length + 1) : ∃ ts, Weave W o gs parts ts := by
  induction parts generalizing o gs with
  | nil =>
      obtain ⟨g, rfl⟩ := List.length_eq_one_iff.1 length
      exact ⟨g, .last⟩
  | cons p parts ih =>
      cases gs with
      | nil => cases length
      | cons g gs =>
          obtain ⟨ts, weave⟩ := ih (fun q member => each q (List.mem_cons_of_mem p member))
            (Nat.succ.inj length)
          exact ⟨_, .part g p.2 (each p List.mem_cons_self _) weave⟩

/-- What each item has a value for makes a list of pairs. -/
theorem exists_pairs {β γ : Type} {R : β → γ → Prop} {bs : List β} (each : ∀ b ∈ bs, ∃ c, R b c) :
    ∃ ps : List (β × γ), ps.map Prod.fst = bs ∧ ∀ p ∈ ps, R p.1 p.2 := by
  induction bs with
  | nil => exact ⟨[], rfl, by simp⟩
  | cons b bs ih =>
      obtain ⟨c, related⟩ := each b List.mem_cons_self
      obtain ⟨ps, same, others⟩ := ih fun d member => each d (List.mem_cons_of_mem b member)
      exact ⟨(b, c) :: ps, by rw [List.map_cons, same], List.forall_mem_cons.2 ⟨related, others⟩⟩

namespace Expr

/-- Whether the parts of a node bind as tightly as its place among the operators
asks. -/
def InOrder : Expr α → Prop
  | binary _ op l r => l.level ≤ op.level ∧ r.level < op.level
  | unary _ _ .before e => e.level ≤ 1
  | unary _ _ .after e => e.level = 0
  | call _ callee _ _ => callee.level = 0
  | member _ base _ | index _ base _ => base.level = 0
  | conditional _ c _ _ => c.level ≤ 12
  | assign _ _ l _ => l.level ≤ 12
  | _ => True

/-- Every node has its parts in the order of precedence. -/
def Normal (e : Expr α) : Prop := ∀ d ∈ e.subexpressions, d.InOrder

/-- Whether a node's own data can be written, and it takes no member or element of a
creation, whose type would go on with them. -/
def Expressible : Expr α → Prop
  | identifier _ n => n ≠ "" ∧ Ty.ofName? n = none
  | number _ s => s ≠ ""
  | elementary _ t => ∃ n, Ty.ofName? n = some t
  | new _ t => t.Nameable
  | unary _ op .after _ => op = .increment ∨ op = .decrement
  | call _ _ args names => names = [] ∨ names.length = args.length ∧ ∀ n ∈ names, n.text ≠ ""
  | member _ base m => m.text ≠ "" ∧ base.created? = none
  | index _ base _ => base.created? = none
  | _ => True

/-- The tokens of a tree: those of a node stand before, between and behind those of
its parts. -/
inductive Renders : Expr α → List Spaced → Prop where
  | node {e : Expr α} {ts : List Spaced} (gs : List (List Spaced))
      (parts : List (Expr α × List Spaced)) (groups : e.Groups gs)
      (children : parts.map Prod.fst = e.children)
      (weave : Weave (fun _ e us => Renders e us) 0 gs parts ts) : Renders e ts

section Order

instance (e : Expr α) : Decidable e.InOrder :=
  match e with
  | binary _ op l r => inferInstanceAs (Decidable (l.level ≤ op.level ∧ r.level < op.level))
  | unary _ _ .before e => inferInstanceAs (Decidable (e.level ≤ 1))
  | unary _ _ .after e => inferInstanceAs (Decidable (e.level = 0))
  | call _ callee _ _ => inferInstanceAs (Decidable (callee.level = 0))
  | member _ base _ | index _ base _ => inferInstanceAs (Decidable (base.level = 0))
  | conditional _ c _ _ => inferInstanceAs (Decidable (c.level ≤ 12))
  | assign _ _ l _ => inferInstanceAs (Decidable (l.level ≤ 12))
  | identifier .. | number .. | string .. | bool .. | elementary .. | tuple .. | new .. => .isTrue trivial

theorem Normal.part {e c : Expr α} (h : e.Normal) (child : c ∈ e.children) : c.Normal :=
  fun d member => h d (mem_subexpressions.2 (.inr ⟨c, child, member⟩))

theorem Fits.inOrder {e : Expr α} (h : e.Fits) : e.InOrder := by
  cases e with
  | unary i op fixity e => cases fixity <;> exact h
  | member i base m => exact h.1
  | index i base k =>
      cases k with
      | none => exact h.1
      | some k => exact h
  | identifier | number | string | bool | elementary | tuple | new => trivial
  | binary | assign | call | conditional => exact h

theorem Written.normal {place : Span → Nat → List Spaced → Prop} {o : Nat} {e : Expr α}
    {ts : List Spaced} (h : e.Written place o ts) : e.Normal := by
  induction e using induction_children generalizing o ts with
  | node e ih =>
      obtain ⟨gs, parts, -, fits, -, -, children, weave⟩ := h
      have laid : Laid (Written place) o e.children ts := ⟨gs, parts, weave, children⟩
      intro d member
      rcases mem_subexpressions.1 member with rfl | ⟨c, child, inside⟩
      · exact fits.inOrder
      · have stands : ∀ c ∈ e.children, ∃ o us, c.Written place o us :=
          laid.forall fun o _ us written => ⟨o, us, written⟩
        obtain ⟨_, _, written⟩ := stands c child
        exact ih c child written d inside

theorem InOrder.fits {e : Expr α} (order : e.InOrder) (own : e.Expressible) : e.Fits := by
  cases e with
  | unary i op fixity e => cases fixity <;> exact order
  | member i base m => exact ⟨order, fun _ _ => by simp [own.2]⟩
  | index i base k =>
      cases k with
      | none => exact ⟨order, own⟩
      | some k => exact order
  | identifier | number | string | bool | elementary | tuple | new => trivial
  | binary | assign | call | conditional => exact order

theorem Expressible.apart {e : Expr α} (own : e.Expressible) (ps : List (List Spaced)) : e.Apart ps := by
  cases e with
  | index i base k =>
      cases k with
      | none => trivial
      | some k => exact .inl own
  | _ => trivial

/-- A tree in the order of precedence is spelled by its tokens. -/
theorem Renders.spelled {e : Expr α} {ts : List Spaced} (h : e.Renders ts) (normal : e.Normal)
    (own : ∀ d ∈ e.subexpressions, d.Expressible) : e.Spelled ts := by
  induction e using induction_children generalizing ts with
  | node e ih =>
      obtain ⟨gs, parts, groups, children, weave⟩ := h
      have here := e.self_mem_subexpressions
      refine .node gs parts groups ((normal e here).fits (own e here)) ((own e here).apart _) children ?_
      refine weave.anywhere (fun p member _ rendered _ => ?_) 0
      have child : p.1 ∈ e.children := children ▸ List.mem_map_of_mem member
      exact ih p.1 child rendered (normal.part child) fun d inside =>
        own d (mem_subexpressions.2 (.inr ⟨p.1, child, inside⟩))

end Order

section Existence

theorem listTail_exists {names : List (Option String)} (some : ∀ n, Option.some n ∈ names → n ≠ "")
    (behind : List Spaced) :
    ∃ gs, ListTail (behind.map Spaced.kind) names gs ∧ gs.length = names.length + 1 := by
  induction names with
  | nil => exact ⟨[behind], ⟨behind, rfl, rfl⟩, rfl⟩
  | cons n ns ih =>
      obtain ⟨gs, tail, length⟩ := ih fun m member => some m (List.mem_cons_of_mem n member)
      obtain ⟨lead, led⟩ := lead_exists fun m same => some m (same ▸ List.mem_cons_self)
      exact ⟨(Mark.comma.alone :: lead) :: gs, ⟨_, lead, gs, rfl, rfl, led, tail⟩, by simp [length]⟩

theorem listed_exists (names : List (Option String)) (some : ∀ n, Option.some n ∈ names → n ≠ "")
    (front behind : List Spaced) :
    ∃ gs, Listed (front.map Spaced.kind) (behind.map Spaced.kind) names gs ∧
      gs.length = names.length + 1 := by
  cases names with
  | nil => exact ⟨[front ++ behind], ⟨front ++ behind, rfl, by simp⟩, rfl⟩
  | cons n ns =>
      obtain ⟨gs, tail, length⟩ :=
        listTail_exists (fun m member => some m (List.mem_cons_of_mem n member)) behind
      obtain ⟨lead, led⟩ := lead_exists fun m same => some m (same ▸ List.mem_cons_self)
      exact ⟨(front ++ lead) :: gs, ⟨front, lead, gs, rfl, rfl, led, tail⟩, by simp [length]⟩

/-- The own tokens of a node whose data can be written. -/
theorem Expressible.groups {e : Expr α} (own : e.Expressible) :
    ∃ gs, e.Groups gs ∧ gs.length = e.children.length + 1 := by
  cases e with
  | identifier i n =>
      exact ⟨[[.alone .identifier n own.1]], ⟨_, rfl, rfl, String.ofList_toList, own.2⟩, rfl⟩
  | number i s =>
      exact ⟨[[.alone .number s own]], .inl ⟨_, rfl, rfl, String.ofList_toList⟩, rfl⟩
  | string i s =>
      refine ⟨[[⟨[], .string, '"' :: s.toList ++ ['"'], by simp⟩]], ⟨_, rfl, rfl, ?_⟩, rfl⟩
      simp [Grammar.Phrase.unquoted]
  | bool i b =>
      refine ⟨[[(if b then Keyword.true else .false).alone]], ⟨_, rfl, ?_⟩, rfl⟩
      cases b <;> rfl
  | elementary i type =>
      obtain ⟨n, named⟩ := own
      have spelled : Ty.ofName? (String.ofList n.toList) = type := by simpa using named
      exact ⟨[[.alone .identifier n (Ty.ne_empty_of_named named)]], ⟨_, rfl, .inl ⟨rfl, spelled⟩⟩, rfl⟩
  | new i type =>
      obtain ⟨ts, written⟩ := TypeName.Nameable.written own
      exact ⟨[Keyword.new.alone :: ts], ⟨_, ts, rfl, rfl, written⟩, rfl⟩
  | binary i op l r => exact ⟨[[], [op.mark.alone], []], ⟨_, rfl, rfl⟩, rfl⟩
  | assign i op l r => exact ⟨[[], [op.mark.alone], []], ⟨_, rfl, rfl⟩, rfl⟩
  | unary i op fixity e =>
      cases fixity with
      | before => exact ⟨[[op.alone], []], ⟨_, rfl, rfl⟩, rfl⟩
      | after => exact ⟨[[], [op.alone]], ⟨_, rfl, rfl, own⟩, rfl⟩
  | call i callee args names =>
      rcases own with rfl | ⟨length, some⟩
      · obtain ⟨gs, listed, count⟩ := listed_exists (args.map fun _ => none) (by simp)
          [Mark.openParen.alone] [Mark.closeParen.alone]
        exact ⟨[] :: gs, ⟨gs, rfl, .inl ⟨rfl, listed⟩⟩, by simp [count, children]⟩
      · obtain ⟨gs, listed, count⟩ := listed_exists (names.map fun n => Option.some n.text)
          (by simpa using some) [Mark.openParen.alone, Mark.openBrace.alone]
          [Mark.closeBrace.alone, Mark.closeParen.alone]
        exact ⟨[] :: gs, ⟨gs, rfl, .inr ⟨length, listed⟩⟩, by simp [count, children, length]⟩
  | member i base m =>
      exact ⟨[[], [Mark.dot.alone, .alone .identifier m.text own.1]],
        ⟨_, _, rfl, rfl, rfl, String.ofList_toList⟩, rfl⟩
  | index i base k =>
      cases k with
      | none => exact ⟨[[], [Mark.openBracket.alone, Mark.closeBracket.alone]], ⟨_, rfl, rfl⟩, rfl⟩
      | some k =>
          exact ⟨[[], [Mark.openBracket.alone], [Mark.closeBracket.alone]], ⟨_, _, rfl, rfl, rfl⟩, rfl⟩
  | conditional i c t f =>
      exact ⟨[[], [Mark.question.alone], [Mark.colon.alone], []], ⟨_, _, rfl, rfl, rfl⟩, rfl⟩
  | tuple i es =>
      obtain ⟨gs, listed, count⟩ := listed_exists (es.map fun _ => none) (by simp)
        [Mark.openParen.alone] [Mark.closeParen.alone]
      exact ⟨gs, listed, by simpa [children] using count⟩

/-- A tree whose data can be written has tokens. -/
theorem exists_renders {e : Expr α} (own : ∀ d ∈ e.subexpressions, d.Expressible) :
    ∃ ts, e.Renders ts := by
  induction e using induction_children with
  | node e ih =>
      obtain ⟨gs, groups, length⟩ := (own e e.self_mem_subexpressions).groups
      have each : ∀ c ∈ e.children, ∃ ts, c.Renders ts := fun c child =>
        ih c child fun d inside => own d (mem_subexpressions.2 (.inr ⟨c, child, inside⟩))
      obtain ⟨parts, children, rendered⟩ := exists_pairs each
      obtain ⟨ts, weave⟩ := Weave.exists (o := 0) (fun p member _ => rendered p member)
        (by rw [length, ← children, List.length_map])
      exact ⟨ts, .node gs parts groups children weave⟩

end Existence

end Expr

namespace Grammar.Phrase

/-- What is read off tokens of a text is in the order of precedence. -/
theorem normal_of_readAll {source : Source} {ts : List Spaced} {e : Expr Unit}
    (holds : Holds source 0 ts) (read : expression.readAll (.start source (lexemes 0 ts)) = .ok e) :
    e.Normal := by
  have found := (readAll_iff (by rfl)).1 read
  have reading : (Symbol.meaning source .expression).reads 0 e ts [] := by
    show Symbol.split source .expression (lexemes 0 (ts ++ [])) = _
    rw [List.append_nil]
    exact found
  have sound := sound_of_reads (by simpa using holds) reading
  exact sound.1.normal

theorem normal_of_parse {source : Source} {u : SourceUnit Unit} (read : source.parse.unit = .ok u) :
    ∀ e ∈ u.expressions, e.Normal := by
  obtain ⟨ts, found, holds⟩ := Token.scan_holds source
  have laid := Source.laid_of_parse read found holds
  intro e member
  obtain ⟨c, inside, member⟩ := List.mem_flatMap.1 member
  obtain ⟨root, top, member⟩ := List.mem_flatMap.1 (c.expressions_eq ▸ member)
  have roots : ∀ c ∈ u.contracts, ∀ root ∈ c.roots, root.Normal := by
    refine laid.forall fun o c us placed => ?_
    obtain ⟨-, -, us, vs, rfl, -, bases, members, -⟩ := placed
    intro root top
    rcases List.mem_append.1 top with top | top
    · exact bases.forall (fun _ _ _ located => located.normal) root top
    · exact members.forall (fun _ _ _ located => located.normal) root top
  exact fun d deep => roots c inside root top d (Expr.mem_subexpressions_trans deep member)

/-- The grammar of expressions is the order of precedence. Every tree that is read has
its parts in this order; and a tree with its parts in this order whose data can be
written has tokens, and is what all of these are read as. -/
theorem reads_precedence :
    (∀ (source : Source) (e : Expr Unit),
        expression.readAll (.start source (Token.scan source).lexemes) = .ok e → e.Normal) ∧
      (∀ (source : Source) (u : SourceUnit Unit), source.parse.unit = .ok u →
        ∀ e ∈ u.expressions, e.Normal) ∧
      ∀ e : Expr α, e.Normal → (∀ d ∈ e.subexpressions, d.Expressible) →
        (∃ ts, e.Renders ts) ∧
          ∀ ts, e.Renders ts →
            ∃ e', expression.readAll (.start (textOf ts) (lexemes 0 ts)) = .ok e' ∧
              e'.bare = e.bare := by
  refine ⟨fun source e read => ?_, fun source u read => normal_of_parse read, fun e normal own => ?_⟩
  · obtain ⟨ts, found, holds⟩ := Token.scan_holds source
    rw [found] at read
    exact normal_of_readAll holds read
  · exact ⟨Expr.exists_renders own, fun ts rendered => readAll_of_spelled (rendered.spelled normal own)⟩

/-- Two subtractions, the tree of `a - -b - c`. -/
def subtractions : Expr Unit :=
  .binary .bare .subtract
    (.binary .bare .subtract (.identifier .bare "a")
      (.unary .bare .negate .before (.identifier .bare "b")))
    (.identifier .bare "c")

theorem reads_precedence_subtractions :
    (∃ e, expression.readAll (.start "a - -b - c".toList (Token.scan "a - -b - c".toList).lexemes) = .ok e ∧
      e.Normal) ∧
    ∃ ts e', subtractions.Renders ts ∧
      expression.readAll (.start (textOf ts) (lexemes 0 ts)) = .ok e' ∧
      e'.bare = subtractions.bare := by
  obtain ⟨every, -, back⟩ := reads_precedence (α := Unit)
  constructor
  · have read : (match expression.readAll (.start "a - -b - c".toList (Token.scan "a - -b - c".toList).lexemes) with
        | .ok _ => true
        | .error _ => false) = true := by
      decide +kernel
    split at read
    · next e found => exact ⟨e, found, every _ e found⟩
    · cases read
  · have normal : subtractions.Normal := by
      intro d member
      revert d
      decide
    have own : ∀ d ∈ subtractions.subexpressions, d.Expressible := by
      simp [subtractions, Expr.subexpressions, Expr.Expressible]
      decide
    obtain ⟨⟨ts, rendered⟩, reads⟩ := back subtractions normal own
    obtain ⟨e', found, same⟩ := reads ts rendered
    exact ⟨ts, e', rendered, found, same⟩

end Grammar.Phrase
end SafeSubset
