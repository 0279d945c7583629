import SafeSubset.Source.Bytes

/-! Cutting a text at places that fall between its characters. -/
namespace SafeSubset.Source

@[simp] theorem byteLength_nil : byteLength [] = 0 := rfl

@[simp] theorem byteLength_cons (c : Char) (cs : Source) :
    byteLength (c :: cs) = c.utf8Size + byteLength cs := rfl

@[simp] theorem byteLength_append (a b : Source) :
    byteLength (a ++ b) = byteLength a + byteLength b := by
  induction a with
  | nil => simp
  | cons c cs ih => simp [ih, Nat.add_assoc]

theorem byteLength_pos {a : Source} (h : a ≠ []) : 0 < byteLength a := by
  cases a with
  | nil => contradiction
  | cons c cs =>
      have := Char.utf8Size_pos c
      simp only [byteLength_cons]
      omega

theorem dropBytes_append (a b : Source) : dropBytes (byteLength a) (a ++ b) = some b := by
  induction a with
  | nil => cases b <;> rfl
  | cons c cs ih =>
      have := Char.utf8Size_pos c
      obtain ⟨n, hn⟩ : ∃ n, c.utf8Size + byteLength cs = n + 1 :=
        ⟨c.utf8Size + byteLength cs - 1, by omega⟩
      simp only [byteLength_cons, hn, List.cons_append, dropBytes]
      rw [if_pos (by omega), show n + 1 - c.utf8Size = byteLength cs by omega]
      exact ih

theorem takeBytes_append (a b : Source) : takeBytes (byteLength a) (a ++ b) = some a := by
  induction a with
  | nil => cases b <;> rfl
  | cons c cs ih =>
      have := Char.utf8Size_pos c
      obtain ⟨n, hn⟩ : ∃ n, c.utf8Size + byteLength cs = n + 1 :=
        ⟨c.utf8Size + byteLength cs - 1, by omega⟩
      simp only [byteLength_cons, hn, List.cons_append, takeBytes]
      rw [if_pos (by omega), show n + 1 - c.utf8Size = byteLength cs by omega, ih]
      rfl

/-- The text of the span that `b` has behind `a`. -/
theorem slice_append (a b c : Source) :
    slice (a ++ (b ++ c)) ⟨byteLength a, byteLength a + byteLength b⟩ = b := by
  simp [slice, slice?, dropBytes_append, takeBytes_append]

theorem slice_front (a b : Source) : slice (a ++ b) ⟨0, byteLength a⟩ = a := by
  simpa using slice_append [] a b

theorem slice_all (source : Source) : slice source ⟨0, byteLength source⟩ = source := by
  simpa using slice_front source []

@[simp] theorem slice_empty (source : Source) (offset : Nat) : slice source ⟨offset, offset⟩ = [] := by
  unfold slice slice?
  cases dropBytes offset source <;> simp [takeBytes]

end SafeSubset.Source
