import SafeSubset.Proofs.Checked.Tokens
import SafeSubset.Proofs.Edits.Emission

/-! What is written out for a file. Where operations are replaced, a call is written out
for one, with what is written out for its operands in it; elsewhere the source is. The
text of it all is the rewritten text. -/
namespace SafeSubset.Checked

open Emission (textAll standingAll filled)
open Edits (Fills Filled)
open Source (Stretch)
open Token (Spaced Holds Piece width extent)

variable {source : Source} {free on : Bool} {e l r : Expr Ty} {c : Contract Ty}

/-- Whether an expression is replaced, where that is `on`. -/
def Exchanged (on : Bool) (e : Expr Ty) : Prop := on = true ∧ Fires e

instance (on : Bool) : DecidablePred (Exchanged on) := fun e => inferInstanceAs (Decidable (on = true ∧ Fires e))

/-- What is written out for a call of a function of the library. -/
def callEmissions (receiver : List Emission) (function : String) (argument : Emission) : List Emission :=
  receiver ++ [.plain (".".toList ++ function.toList ++ "(".toList), argument, .plain ")".toList]

/-- What is written out for the left operand `l` as a receiver. -/
def receiverEmissions (l : Expr Ty) (operand : Emission) : List Emission :=
  if l.type ≠ .uint256 then [.plain "uint256(".toList, operand, .plain ")".toList]
  else if Loose l ∧ ¬ Fires l then [.plain "(".toList, operand, .plain ")".toList]
  else [operand]

mutual
/-- What is written out for an expression. -/
def emissions (source : Source) (on : Bool) : Expr Ty → List Emission
  | .binary i o l r =>
      let left := .expression l.span (emissions source on l)
      let right := .expression r.span (emissions source on r)
      if Exchanged on (.binary i o l r) then
        callEmissions (receiverEmissions l left) (binaryFunction o) right
      else filled source i.span.stop i.span.start [(l.span, [left]), (r.span, [right])]
  | .assign i o l r =>
      let left := .expression l.span (emissions source on l)
      let right := .expression r.span (emissions source on r)
      if Exchanged on (.assign i o l r) then
        left :: .plain " = ".toList :: callEmissions [left] (assignFunction o) right
      else filled source i.span.stop i.span.start [(l.span, [left]), (r.span, [right])]
  | .unary i _ _ e | .member i e _ | .index i e none =>
      filled source i.span.stop i.span.start [(e.span, [.expression e.span (emissions source on e)])]
  | .index i e (some k) =>
      filled source i.span.stop i.span.start
        [(e.span, [.expression e.span (emissions source on e)]),
          (k.span, [.expression k.span (emissions source on k)])]
  | .call i callee args _ =>
      filled source i.span.stop i.span.start
        ((callee.span, [.expression callee.span (emissions source on callee)]) ::
          emissionsAll source on args)
  | .conditional i c t f =>
      filled source i.span.stop i.span.start
        [(c.span, [.expression c.span (emissions source on c)]),
          (t.span, [.expression t.span (emissions source on t)]),
          (f.span, [.expression f.span (emissions source on f)])]
  | .tuple i es => filled source i.span.stop i.span.start (emissionsAll source on es)
  | .identifier i _ | .number i _ | .string i _ | .bool i _ | .elementary i _ | .new i _ =>
      filled source i.span.stop i.span.start []

def emissionsAll (source : Source) (on : Bool) : List (Expr Ty) → List (Span × List Emission)
  | [] => []
  | e :: es => (e.span, [.expression e.span (emissions source on e)]) :: emissionsAll source on es
end

/-- What is written out for an expression, in its place. -/
def placedEmission (source : Source) (on : Bool) (e : Expr Ty) : Span × List Emission :=
  (e.span, [.expression e.span (emissions source on e)])

/-- What is written out for the expressions of a contract, and put in before it, if it is
the first that changes, and before its first member, if it changes. -/
def contractEmissions (source : Source) (free first : Bool) (c : Contract Ty) :
    List (Span × List Emission) :=
  let place := placedEmission source (free && !decide (Attaches c))
  let changed := free && changes c
  (if changed && first then [(.point c.span.start, [.plain librarySource])] else []) ++
    (c.bases.flatMap Base.roots).map place ++
    (if changed then [(.point c.entry, [.plain directiveSource])] else []) ++
    (c.members.flatMap Member.roots).map place

/-- What is written out for contracts, where operations are replaced if that is `free`. -/
def contractsEmissions (source : Source) (free : Bool) :
    (first : Bool) → List (Contract Ty) → List (Span × List Emission)
  | _, [] => []
  | first, c :: cs =>
      contractEmissions source free first c ++
        contractsEmissions source free (first && !(free && changes c)) cs

/-- What is written out for a file. -/
def fileEmissions (source : Source) (u : SourceUnit Ty) : List Emission :=
  let free := !(u.contracts.any fun c => isLibraryName c.name.text)
  filled source (Source.byteLength source) 0 (contractsEmissions source free true u.contracts)

theorem emissionsAll_eq (es : List (Expr Ty)) :
    emissionsAll source on es = es.map (placedEmission source on) := by
  induction es with
  | nil => rfl
  | cons e es ih => simp [emissionsAll, placedEmission, ih]

/-- For what is not replaced, the source is written out around its parts. -/
theorem emissions_of_not (plain : ¬ Exchanged on e) :
    emissions source on e =
      filled source e.span.stop e.span.start (e.children.map (placedEmission source on)) := by
  cases e with
  | binary i o l r =>
      simp only [emissions, plain]
      rfl
  | assign i o l r =>
      simp only [emissions, plain]
      rfl
  | index i base k => cases k <;> rfl
  | call i callee args names => simp [emissions, emissionsAll_eq, Expr.children, placedEmission]; rfl
  | tuple i es => simp [emissions, emissionsAll_eq, Expr.children]; rfl
  | _ => rfl

/-- The edits in an expression, where operations are replaced. -/
def editsOf (source : Source) (on : Bool) (e : Expr Ty) : List Edit :=
  if on then patches source e else []

theorem editsOf_of_not (plain : ¬ Exchanged on e) :
    editsOf source on e = e.children.flatMap (editsOf source on) := by
  cases on with
  | false => simp [editsOf]
  | true => exact patches_of_none (operation_none_iff.2 fun fires => plain ⟨rfl, fires⟩)

section Texts

@[simp] theorem text_callEmissions (receiver : List Emission) (function : String) (argument : Emission) :
    textAll (callEmissions receiver function argument) =
      calling (textAll receiver) function argument.text := by
  simp [callEmissions, calling, textAll, Emission.text]

@[simp] theorem text_receiverEmissions (operand : Emission) :
    textAll (receiverEmissions l operand) = receiving l operand.text := by
  unfold receiverEmissions receiving
  split
  · simp [textAll, Emission.text]
  · split <;> simp [textAll, Emission.text]

/-- Whether the places where an expression and everything in it start and end fall between
characters. -/
def Bounded (source : Source) (e : Expr Ty) : Prop :=
  ∀ d ∈ e.subexpressions, ∃ text, source.Stretch d.span.start text d.span.stop

/-- What is written out for an expression is its source with the edits in it in place. -/
theorem fills_emissions (on : Bool) (nested : e.Nested) (bounded : Bounded source e) :
    Fills source e.span.start (editsOf source on e) e.span.stop (textAll (emissions source on e)) := by
  induction nested with
  | @node e wide parts proper inner ih =>
      have inside : ∀ c ∈ e.children, Bounded source c := fun c child d deep =>
        bounded d (Expr.mem_subexpressions.2 (.inr ⟨c, child, deep⟩))
      have each := fun c child => ih c child (inside c child)
      obtain ⟨text, here⟩ := bounded e e.self_mem_subexpressions
      by_cases exchanged : Exchanged on e
      · obtain ⟨rfl, fires⟩ := exchanged
        obtain ⟨op, replaced⟩ := Option.isSome_iff_exists.1 ((fires_iff e).2 fires)
        have operand : ∀ c ∈ e.children, textAll (emissions source true c) = outText source c :=
          fun c child => (each c child).substituted.symm
        have same : textAll (emissions source true e) = outText source e := by
          cases e with
          | binary i o l r =>
              have left := operand l (by simp [Expr.children])
              have right := operand r (by simp [Expr.children])
              rw [outText_binary_of_fires fires, ← left, ← right]
              simp [emissions, Exchanged, fires, Emission.text]
          | assign i o l r =>
              have left := operand l (by simp [Expr.children])
              have right := operand r (by simp [Expr.children])
              rw [outText_assign_of_fires fires, ← left, ← right]
              simp [emissions, Exchanged, fires, Emission.text, textAll]
          | _ => cases fires
        have own : Fills source e.span.start [(e.span, outText source e)] e.span.stop
            ([] ++ outText source e ++ []) := .edit here.front (.done here.nil)
        rw [same, show editsOf source true e = _ from patches_of_some replaced]
        simpa using own
      · rw [editsOf_of_not exchanged, emissions_of_not exchanged]
        refine (Filled.all (fun c child => ?_) parts here.front here.nil).fills
        simpa [textAll, Emission.text] using each c child

end Texts

section Places

variable {ts us before behind : List Spaced} {tail : List Source} {o : Nat}

/-- The place of some tokens falls between characters. -/
theorem stretch_of_extent (holds : Holds source o ts) (some : ts ≠ []) :
    ∃ text, source.Stretch (extent o ts).start text (extent o ts).stop := by
  have whole := stretch_of_holds holds
  have wide := Token.extent_lt o some
  rw [Token.gapText_core some] at whole
  obtain ⟨text, -, rest⟩ := whole.left.split whole (Nat.le_of_lt wide)
  exact ⟨text, rest⟩

theorem bounded_of_located (located : e.Located o ts) (holds : Holds source o ts) : Bounded source e := by
  intro d deep
  obtain ⟨before, us, behind, rfl, part⟩ := located.mem deep
  obtain ⟨some, place⟩ := part.span
  rw [List.append_assoc] at holds
  exact place ▸ stretch_of_extent holds.right.left some

/-- Where operations are replaced but none is, there is no edit. -/
theorem editsOf_eq_nil (same : (free && changes c) = false) (root : e ∈ c.roots) :
    editsOf source (free && !decide (Attaches c)) e = [] := by
  unfold editsOf
  split
  · next on =>
    refine patches_eq_nil fun d deep => ?_
    have member : d ∈ c.expressions := by
      rw [Contract.expressions_eq]
      exact List.mem_flatMap.2 ⟨e, root, deep⟩
    simp only [Bool.and_eq_true, Bool.not_eq_true', decide_eq_false_iff_not] at on
    simp only [changes, on.1, on.2, not_false_eq_true, true_and, Bool.true_and,
      decide_eq_false_iff_not] at same
    exact operation_none_iff.2 fun fires => same ⟨d, member, fires⟩
  · rfl

/-- The expressions of a contract with the edits in place. -/
theorem fills_root {o : Nat} (placed : c.Placed o us) (here : Holds source o us) (on : Bool) {e : Expr Ty}
    (root : e ∈ c.roots) :
    Fills source e.span.start (editsOf source on e) e.span.stop
      (textAll (placedEmission source on e).2) := by
  obtain ⟨before, vs, behind, rfl, located⟩ := placed.roots.mem root
  rw [List.append_assoc] at here
  have sound := fills_emissions on ((ordered_of_placed placed).nested e root)
    (bounded_of_located located here.right.left)
  simpa [placedEmission, textAll, Emission.text] using sound

variable (cut : Token.pieces source = ts.flatMap Spaced.pieces ++ tail.map (⟨.trivia, ·⟩))
  (holds : Holds source 0 ts)

include cut holds

/-- The place before the members is one of the source. -/
theorem stretch_directive (among : ts = before ++ us ++ behind) (placed : c.Placed (width before) us) :
    source.Stretch c.entry [] c.entry := by
  obtain ⟨init, a, t, vs, rfl, -, place⟩ := entry_of_placed cut among placed
  have tokens : Holds source (width (before ++ (init ++ [a]))) (t :: vs) := by
    have split : ts = (before ++ (init ++ [a])) ++ ((t :: vs) ++ behind) := by simp [among]
    rw [split] at holds
    simpa using holds.right.left
  obtain ⟨text, rest⟩ := stretch_of_extent tokens (List.cons_ne_nil t vs)
  rw [place]
  exact rest.front

/-- What is written out for a contract is its source with the edits in place. -/
theorem filled_contract (among : ts = before ++ us ++ behind) (placed : c.Placed (width before) us)
    (free first : Bool) :
    Filled source c.span.start (if free && changes c then contractPatches source first c else [])
      (contractEmissions source free first c) c.span.stop := by
  have ordered := ordered_of_placed placed
  have here : Holds source (width before) us := by
    rw [among, List.append_assoc] at holds
    simpa using holds.right.left
  obtain ⟨text, whole⟩ := stretch_of_extent here placed.some
  rw [← placed.span] at whole
  have entry := stretch_directive cut holds among placed
  have roots := fun e (root : e ∈ c.roots) => fills_root placed here (free && !decide (Attaches c)) root
  have bases : Filled source _ _ ((c.bases.flatMap Base.roots).map (placedEmission source _)) _ :=
    .all (fun e root => roots e (List.mem_append_left _ root)) ordered.bases whole.front entry
  have members : Filled source _ _ ((c.members.flatMap Member.roots).map (placedEmission source _)) _ :=
    .all (fun e root => roots e (List.mem_append_right _ root)) ordered.members entry whole.nil
  have library := Filled.point whole.front librarySource
  have directive := Filled.point entry directiveSource
  cases changed : free && changes c with
  | false =>
      have none : ∀ es : List (Expr Ty), (∀ e ∈ es, e ∈ c.roots) →
          es.flatMap (editsOf source (free && !decide (Attaches c))) = [] := fun es inside =>
        List.flatMap_eq_nil_iff.2 fun e member => editsOf_eq_nil changed (inside e member)
      have all := bases.append members
      rw [none _ fun e root => List.mem_append_left _ root, none _ fun e root => List.mem_append_right _ root] at all
      simpa [contractEmissions, changed] using all
  | true =>
      have on : (free && !decide (Attaches c)) = true := by
        simp only [changes, Bool.and_eq_true, decide_eq_true_eq] at changed
        simp [changed.1, changed.2.1]
      have same : editsOf source true = patches source := rfl
      rw [on, same] at bases members
      have behind := bases.append (directive.append members)
      cases first with
      | false => simpa [contractEmissions, contractPatches, changed, on] using behind
      | true =>
          simpa [contractEmissions, contractPatches, changed, on] using
            library.append behind

end Places

/-- What is written out for contracts that follow one another. -/
theorem filled_contracts {cs : List (Contract Ty)} {lo hi : Nat} {free : Bool}
    (each : ∀ c ∈ cs, ∀ first, Filled source c.span.start
      (if free && changes c then contractPatches source first c else [])
      (contractEmissions source free first c) c.span.stop)
    (parts : Arranged lo (cs.map Contract.span) hi) (front : source.Stretch lo [] lo)
    (behind : source.Stretch hi [] hi) (first : Bool) :
    Filled source lo (if free then filePatches source first cs else [])
      (contractsEmissions source free first cs) hi := by
  induction cs generalizing lo first with
  | nil =>
      obtain ⟨le⟩ := parts
      obtain ⟨w, rest⟩ := front.between behind le
      simpa [filePatches, contractsEmissions] using Filled.done rest
  | cons c cs ih =>
      obtain ⟨-⟩ | ⟨from_le, -, -, rest⟩ := parts
      have own := each c List.mem_cons_self first
      obtain ⟨w, before⟩ := front.between own.fills.bounds.1 from_le
      have others := ih (fun d member => each d (List.mem_cons_of_mem c member)) rest own.fills.bounds.2
        (first && !(free && changes c))
      have whole := (own.append others).prepend before
      rw [contractsEmissions]
      cases free with
      | false => simpa using whole
      | true =>
          rw [filePatches_cons]
          cases changed : changes c <;> simpa [changed] using whole

/-- What is written out for an accepted file is its rewritten text. -/
theorem text_fileEmissions {u : SourceUnit Ty} (accepted : source.front = .ok u) :
    textAll (fileEmissions source u) = (harden source u).text := by
  obtain ⟨ts, tail, cut, holds, laid⟩ := Source.front_placed accepted
  obtain ⟨parts, -⟩ := ordered_contracts accepted
  have ends : source.Stretch (Source.byteLength source) [] (Source.byteLength source) :=
    ⟨source, [], by simp, rfl, rfl⟩
  have each : ∀ c ∈ u.contracts, ∀ free first, Filled source c.span.start
      (if free && changes c then contractPatches source first c else [])
      (contractEmissions source free first c) c.span.stop := by
    intro c inside free first
    obtain ⟨before, us, behind, among, placed⟩ := laid.mem inside
    rw [Nat.zero_add] at placed
    exact filled_contract cut holds among placed free first
  have whole := fun free => (filled_contracts (fun c inside => each c inside free) parts
    ⟨[], source, rfl, rfl, rfl⟩ ends true).fills.substituted
  rw [harden_edits accepted, fileEdits, fileEmissions]
  cases u.contracts.any fun c => isLibraryName c.name.text with
  | false => exact (whole true).symm
  | true => exact (whole false).symm

end SafeSubset.Checked
