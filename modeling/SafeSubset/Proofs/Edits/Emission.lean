import SafeSubset.Proofs.Edits.Fills

/-! Texts in which it is marked what stands for which expression. Around marked parts
stands the source, so that the text of all is that of the source with the parts in
their places. -/
namespace SafeSubset

/-- A piece of a text that is written out. -/
inductive Emission where
  | plain (text : Source)
  /-- What stands for the expression at a span. -/
  | expression (span : Span) (parts : List Emission)

namespace Emission

mutual
def text : Emission → Source
  | .plain text => text
  | .expression _ parts => textAll parts

def textAll : List Emission → Source
  | [] => []
  | p :: ps => p.text ++ textAll ps
end

mutual
/-- The texts that stand for the expression at a span, each as often as it does. -/
def standing (s : Span) : Emission → List Source
  | .plain _ => []
  | .expression t parts => (if t = s then [textAll parts] else []) ++ standingAll s parts

def standingAll (s : Span) : List Emission → List Source
  | [] => []
  | p :: ps => p.standing s ++ standingAll s ps
end

/-- The source from an offset to a stop with the parts for some spans in place. -/
def filled (source : Source) (stop : Nat) : (offset : Nat) → List (Span × List Emission) → List Emission
  | offset, [] => [.plain (source.slice ⟨offset, stop⟩)]
  | offset, (s, parts) :: rest =>
      .plain (source.slice ⟨offset, s.start⟩) :: (parts ++ filled source stop s.stop rest)

variable {source : Source} {start stop : Nat} {s : Span} {ps qs : List Emission}

@[simp] theorem textAll_append (ps qs : List Emission) : textAll (ps ++ qs) = textAll ps ++ textAll qs := by
  induction ps with
  | nil => rfl
  | cons p ps ih => simp [textAll, ih]

@[simp] theorem standingAll_append (s : Span) (ps qs : List Emission) :
    standingAll s (ps ++ qs) = standingAll s ps ++ standingAll s qs := by
  induction ps with
  | nil => rfl
  | cons p ps ih => simp [standingAll, ih]

/-- The source around the parts stands for no expression. -/
theorem standingAll_filled (items : List (Span × List Emission)) :
    standingAll s (filled source stop start items) = items.flatMap fun i => standingAll s i.2 := by
  induction items generalizing start with
  | nil => rfl
  | cons i items ih => simp [filled, standingAll, standing, ih]

end Emission

namespace Source

variable {source u v : Source} {a b c d : Nat}

theorem Stretch.front (h : source.Stretch a u b) : source.Stretch a [] a := by
  obtain ⟨before, after, rfl, length, -⟩ := h
  exact ⟨before, u ++ after, by simp, length, rfl⟩

/-- Between two places that fall between characters there is a text. -/
theorem Stretch.between (first : source.Stretch a [] a) (second : source.Stretch b [] b) (le : a ≤ b) :
    ∃ w, source.Stretch a w b := by
  obtain ⟨before, after, same, length, -⟩ := first
  obtain ⟨before', after', same', length', -⟩ := second
  rcases List.append_eq_append_iff.1 (same.symm.trans same') with ⟨w, rfl, rest⟩ | ⟨w, rfl, rest⟩
  · refine ⟨w, before, after', by simpa using same', length, ?_⟩
    rw [byteLength_append] at length'
    omega
  · rw [byteLength_append] at length
    obtain rfl := eq_nil_of_byteLength (a := w) (by omega)
    refine ⟨[], before', after', by simpa using same', by simpa using length, ?_⟩
    rw [byteLength_nil] at length ⊢
    omega

end Source

namespace Edits

open Source (Stretch)
open Emission (textAll filled)

variable {source u w : Source} {start mid stop : Nat} {s : Span} {es ds : List Edit}
  {items items' : List (Span × List Emission)}

theorem Fills.bounds (h : Fills source start es stop u) :
    source.Stretch start [] start ∧ source.Stretch stop [] stop := by
  induction h with
  | done rest => exact ⟨rest.front, rest.nil⟩
  | edit front rest ih => exact ⟨front.front, ih.2⟩

/-- Between two places, the parts for some spans have the texts that these become with
the edits in place. -/
inductive Filled (source : Source) : Nat → List Edit → List (Span × List Emission) → Nat → Prop where
  | done {start stop : Nat} {w : Source} (rest : source.Stretch start w stop) : Filled source start [] [] stop
  | item {start stop : Nat} {w : Source} {s : Span} {es ds : List Edit} {parts : List Emission}
      {items : List (Span × List Emission)} (front : source.Stretch start w s.start)
      (own : Fills source s.start es s.stop (textAll parts)) (rest : Filled source s.stop ds items stop) :
      Filled source start (es ++ ds) ((s, parts) :: items) stop

namespace Filled

/-- What is written out then is the source with the edits in place. -/
theorem fills (h : Filled source start es items stop) :
    Fills source start es stop (textAll (filled source stop start items)) := by
  induction h with
  | @done start stop w rest =>
      have same : textAll (filled source stop start []) = w := by
        simp [filled, textAll, Emission.text, rest.slice]
      exact same ▸ .done rest
  | item front own rest ih =>
      have whole := (own.append ih).prepend front
      simpa [filled, textAll, Emission.text, front.slice] using whole

theorem prepend (front : source.Stretch start w mid) (h : Filled source mid es items stop) :
    Filled source start es items stop := by
  cases h with
  | done rest => exact .done (front.append rest)
  | item front' own rest => exact .item (front.append front') own rest

theorem append (first : Filled source start es items mid) (second : Filled source mid ds items' stop) :
    Filled source start (es ++ ds) (items ++ items') stop := by
  induction first with
  | done rest => exact second.prepend rest
  | item front own rest ih =>
      rw [List.append_assoc]
      exact .item front own (ih second)

theorem nil (place : source.Stretch start [] start) : Filled source start [] [] start := .done place

/-- Text that is put in. -/
theorem point (place : source.Stretch start [] start) (text : Source) :
    Filled source start [(.point start, text)] [(.point start, [.plain text])] start := by
  have own : Fills source start [(.point start, text)] start ([] ++ text ++ []) :=
    .edit place (.done place)
  rw [← List.append_nil [(Span.point start, text)]]
  refine .item place ?_ (.done place)
  simpa [textAll, Emission.text, Span.point] using own

/-- Parts for things that follow one another. -/
theorem all {ε : Type} {place : ε → Span} {edits : ε → List Edit} {parts : ε → List Emission} {xs : List ε}
    (sound : ∀ x ∈ xs, Fills source (place x).start (edits x) (place x).stop (textAll (parts x)))
    (arranged : Arranged start (xs.map place) stop) (front : source.Stretch start [] start)
    (behind : source.Stretch stop [] stop) :
    Filled source start (xs.flatMap edits) (xs.map fun x => (place x, parts x)) stop := by
  induction xs generalizing start with
  | nil =>
      obtain ⟨le⟩ := arranged
      obtain ⟨w, rest⟩ := front.between behind le
      exact .done rest
  | cons x xs ih =>
      obtain ⟨-⟩ | ⟨from_le, -, -, rest⟩ := arranged
      have own := sound x List.mem_cons_self
      obtain ⟨w, before⟩ := front.between own.bounds.1 from_le
      exact .item before own (ih (fun y member => sound y (List.mem_cons_of_mem x member)) rest own.bounds.2)

end Filled
end Edits
end SafeSubset
