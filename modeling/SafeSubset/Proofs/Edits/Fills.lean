import SafeSubset.Proofs.Edits.Arranged
import SafeSubset.Proofs.Source.Bytes

/-! The text between two offsets with edits in place. What two neighbouring
stretches become can be put together, and a stretch without edits split off. -/
namespace SafeSubset

namespace Source

variable {source a b c d u v w : Source} {start mid stop : Nat}

theorem eq_nil_of_byteLength (none : byteLength a = 0) : a = [] := by
  cases a with
  | nil => rfl
  | cons c cs => exact absurd none (Nat.ne_of_gt (byteLength_pos (List.cons_ne_nil c cs)))

theorem append_inj_of_byteLength (same : a ++ b = c ++ d) (length : byteLength a = byteLength c) :
    a = c ∧ b = d := by
  rcases List.append_eq_append_iff.1 same with ⟨e, rfl, rfl⟩ | ⟨e, rfl, rfl⟩
  · rw [byteLength_append] at length
    obtain rfl := eq_nil_of_byteLength (a := e) (by omega)
    simp
  · rw [byteLength_append] at length
    obtain rfl := eq_nil_of_byteLength (a := e) (by omega)
    simp

/-- The source has the text from one offset to the other. -/
def Stretch (source : Source) (start : Nat) (text : Source) (stop : Nat) : Prop :=
  ∃ before after, source = before ++ (text ++ after) ∧ byteLength before = start ∧
    start + byteLength text = stop

theorem Stretch.append (first : source.Stretch start u mid) (second : source.Stretch mid v stop) :
    source.Stretch start (u ++ v) stop := by
  obtain ⟨before, after, same, length, ends⟩ := first
  obtain ⟨before', after', same', length', ends'⟩ := second
  rw [same, ← List.append_assoc] at same'
  obtain ⟨rfl, rfl⟩ := append_inj_of_byteLength same' (by rw [byteLength_append]; omega)
  refine ⟨before, after', by simp [same], length, ?_⟩
  rw [byteLength_append]
  omega

theorem Stretch.slice (h : source.Stretch start u stop) : source.slice ⟨start, stop⟩ = u := by
  obtain ⟨before, after, rfl, rfl, rfl⟩ := h
  exact slice_append before u after

/-- What stands at the front of a longer stretch. -/
theorem Stretch.split (front : source.Stretch start u mid) (whole : source.Stretch start w stop)
    (le : mid ≤ stop) : ∃ v, w = u ++ v ∧ source.Stretch mid v stop := by
  obtain ⟨before, after, rfl, length, ends⟩ := front
  obtain ⟨before', after', whole, length', ends'⟩ := whole
  obtain ⟨rfl, texts⟩ := append_inj_of_byteLength whole (length.trans length'.symm)
  rcases List.append_eq_append_iff.1 texts with ⟨v, rfl, rfl⟩ | ⟨v, rfl, rfl⟩
  · refine ⟨v, rfl, before ++ u, after', by simp, by rw [byteLength_append]; omega, ?_⟩
    rw [byteLength_append] at ends'
    omega
  · rw [byteLength_append] at ends
    obtain rfl := eq_nil_of_byteLength (a := v) (by omega)
    refine ⟨[], by simp, before ++ w, after, by simp, by rw [byteLength_append]; omega, ?_⟩
    rw [byteLength_nil] at ends ⊢
    omega

theorem Stretch.left (h : source.Stretch start (u ++ v) stop) :
    source.Stretch start u (start + byteLength u) := by
  obtain ⟨before, after, rfl, length, -⟩ := h
  exact ⟨before, v ++ after, by simp, length, rfl⟩

theorem Stretch.nil (h : source.Stretch start u stop) : source.Stretch stop [] stop := by
  obtain ⟨before, after, rfl, length, ends⟩ := h
  exact ⟨before ++ u, after, by simp, by rw [byteLength_append]; omega, rfl⟩

end Source

namespace Edits

open Source (Stretch)

/-- What a source becomes from one offset to the other with some edits in place. -/
inductive Fills (source : Source) : Nat → List Edit → Nat → Source → Prop where
  | done {start stop : Nat} {text : Source} (rest : source.Stretch start text stop) :
      Fills source start [] stop text
  | edit {start stop : Nat} {s : Span} {before text behind : Source} {es : List Edit}
      (front : source.Stretch start before s.start) (rest : Fills source s.stop es stop behind) :
      Fills source start ((s, text) :: es) stop (before ++ text ++ behind)

variable {source u v w : Source} {start mid stop : Nat} {es ds : List Edit}

namespace Fills

theorem substituted (h : Fills source start es stop u) :
    substituted source stop start es = u := by
  induction h with
  | done rest => exact rest.slice
  | edit front rest ih => simp only [Edits.substituted, front.slice, ih]

theorem prepend (front : source.Stretch start u mid) (h : Fills source mid es stop v) :
    Fills source start es stop (u ++ v) := by
  cases h with
  | done rest => exact .done (front.append rest)
  | edit front' rest =>
      simp only [← List.append_assoc]
      exact .edit (front.append front') rest

theorem append (first : Fills source start es mid u) (second : Fills source mid ds stop v) :
    Fills source start (es ++ ds) stop (u ++ v) := by
  induction first with
  | done rest => exact second.prepend rest
  | edit front rest ih =>
      rw [List.append_assoc]
      exact .edit front (ih second)

/-- A stretch before all edits stays as it is. -/
theorem split (front : source.Stretch start u mid) (h : Fills source start es stop w)
    (arranged : Arranged mid (es.map Prod.fst) stop) :
    ∃ v, w = u ++ v ∧ Fills source mid es stop v := by
  cases h with
  | done rest =>
      obtain ⟨v, same, behind⟩ := front.split rest arranged.le
      exact ⟨v, same, .done behind⟩
  | edit front' rest =>
      obtain ⟨-⟩ | ⟨from_le, -, -, -⟩ := arranged
      obtain ⟨v, rfl, between⟩ := front.split front' from_le
      exact ⟨_, by simp only [List.append_assoc], .edit between rest⟩

end Fills
end Edits
end SafeSubset
