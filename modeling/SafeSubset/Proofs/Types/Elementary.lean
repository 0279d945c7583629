import Mathlib.Data.List.Induction
import SafeSubset.Types.Elementary

/-! Which words name the elementary types. The size behind a name is read as a number,
so what is accepted is a keyword of the language, perhaps with a plus sign or zeros
before its numeral. -/
namespace SafeSubset

section Numerals

variable {cs : List Char} {n : Nat}

theorem digitsValue_toDigits (n : Nat) : digitsValue (Nat.toDigits 10 n) = n :=
  Nat.ofDigitChars_toDigits (by decide) (by decide)

theorem digitsValue_append (cs : List Char) (c : Char) :
    digitsValue (cs ++ [c]) = 10 * digitsValue cs + (c.toNat - '0'.toNat) := by
  simp only [digitsValue, List.foldl_append, List.foldl_cons, List.foldl_nil]

/-- Zeros that lead are of no account. -/
theorem digitsValue_zeros (zeros : Nat) (cs : List Char) :
    digitsValue (List.replicate zeros '0' ++ cs) = digitsValue cs := by
  induction zeros with
  | zero => rfl
  | succ zeros ih => exact ih

theorem digitChar_of_isDigit {c : Char} (digit : c.isDigit) :
    c.toNat - '0'.toNat < 10 ∧ Nat.digitChar (c.toNat - '0'.toNat) = c := by
  simp only [Char.isDigit, Bool.and_eq_true, decide_eq_true_eq, ge_iff_le, UInt32.le_iff_toNat_le]
    at digit
  have bounds : '0'.toNat ≤ c.toNat ∧ c.toNat ≤ '9'.toNat := digit
  have zero : '0'.toNat = 48 := rfl
  have nine : '9'.toNat = 57 := rfl
  have small : c.toNat - '0'.toNat < 10 := by omega
  refine ⟨small, Char.toNat_inj.1 ?_⟩
  rw [Nat.toNat_digitChar_of_lt_ten small]
  omega

/-- Digits are zeros and then the numeral of their value. -/
theorem eq_zeros_append (some : cs ≠ []) (digits : ∀ c ∈ cs, c.isDigit) :
    ∃ zeros, cs = List.replicate zeros '0' ++ Nat.toDigits 10 (digitsValue cs) := by
  induction cs using List.reverseRecOn with
  | nil => contradiction
  | append_singleton cs c ih =>
      obtain ⟨small, char⟩ := digitChar_of_isDigit (digits c (by simp))
      have last : Nat.toDigits 10 (c.toNat - '0'.toNat) = [c] := by
        rw [Nat.toDigits_of_lt_base small, char]
      rw [digitsValue_append]
      by_cases front : cs = []
      · subst front
        exact ⟨0, by simpa [digitsValue] using last.symm⟩
      · obtain ⟨zeros, split⟩ := ih front fun d member => digits d (by simp [member])
        cases value : digitsValue cs with
        | zero =>
            rw [value] at split
            refine ⟨zeros + 1, ?_⟩
            rw [Nat.mul_zero, Nat.zero_add, last, split, List.replicate_succ']
            rfl
        | succ m =>
            rw [value] at split
            have joined := Nat.toDigits_append_toDigits (b := 10) (n := m + 1) (by decide) (by omega) small
            refine ⟨zeros, ?_⟩
            rw [← joined, last, ← List.append_assoc, ← split]

theorem numeral_eq_some_iff : numeral? cs = some n ↔
    ∃ zeros, cs = List.replicate zeros '0' ++ Nat.toDigits 10 n := by
  unfold numeral?
  constructor
  · intro found
    split at found
    · next digits =>
      obtain rfl := Option.some.inj found
      exact eq_zeros_append digits.1 (List.all_eq_true.1 digits.2)
    · cases found
  · rintro ⟨zeros, rfl⟩
    have digits : ∀ c ∈ List.replicate zeros '0' ++ Nat.toDigits 10 n, c.isDigit := by
      intro c member
      rcases List.mem_append.1 member with zero | member
      · rw [List.eq_of_mem_replicate zero]
        rfl
      · exact Nat.isDigit_of_mem_toDigits (by decide) (by decide) member
    have some : List.replicate zeros '0' ++ Nat.toDigits 10 n ≠ [] := by
      simp [Nat.toDigits_ne_nil]
    rw [if_pos ⟨some, List.all_eq_true.2 digits⟩, digitsValue_zeros, digitsValue_toDigits]

/-- What may stand before the digits of a size: a plus sign, and zeros behind it. -/
def IsLead (lead : String) : Prop :=
  ∃ zeros, lead.toList = List.replicate zeros '0' ∨ lead.toList = '+' :: List.replicate zeros '0'

theorem size_eq_some_iff : size? cs = some n ↔
    ∃ lead, IsLead lead ∧ cs = lead.toList ++ (toString n).toList := by
  have numeral : (toString n).toList = Nat.toDigits 10 n := Nat.toList_repr
  have plain : ∀ zeros, (String.ofList (List.replicate zeros '0')).toList = List.replicate zeros '0' :=
    fun _ => String.toList_ofList
  rw [numeral]
  constructor
  · intro found
    unfold size? at found
    split at found
    · next digits =>
      obtain ⟨zeros, rfl⟩ := numeral_eq_some_iff.1 found
      exact ⟨.ofList ('+' :: List.replicate zeros '0'), ⟨zeros, .inr String.toList_ofList⟩,
        by rw [String.toList_ofList, List.cons_append]⟩
    · obtain ⟨zeros, rfl⟩ := numeral_eq_some_iff.1 found
      exact ⟨.ofList (List.replicate zeros '0'), ⟨zeros, .inl (plain zeros)⟩, by rw [plain]⟩
  · rintro ⟨lead, ⟨zeros, zero | plus⟩, rfl⟩
    · have digits : numeral? (lead.toList ++ Nat.toDigits 10 n) = some n :=
        numeral_eq_some_iff.2 ⟨zeros, by rw [zero]⟩
      unfold size?
      split
      · next rest same =>
        have member : '+' ∈ List.replicate zeros '0' ++ Nat.toDigits 10 n := by
          rw [← zero, same]
          exact List.mem_cons_self
        rcases List.mem_append.1 member with sign | sign
        · exact absurd (List.eq_of_mem_replicate sign) (by decide)
        · exact absurd (Nat.isDigit_of_mem_toDigits (b := 10) (by decide) (by decide) sign) (by decide)
      · exact digits
    · rw [plus]
      exact numeral_eq_some_iff.2 ⟨zeros, rfl⟩

end Numerals

namespace Ty

/-- The names behind which a size stands, with the sizes that there are and the types. -/
inductive Sized : String → Nat → Ty → Prop where
  | uint {n : Nat} (pos : 0 < n) (bound : n ≤ 256) (bytes : 8 ∣ n) : Sized "uint" n (.integer (.unsigned n))
  | int {n : Nat} (pos : 0 < n) (bound : n ≤ 256) (bytes : 8 ∣ n) : Sized "int" n (.integer (.signedOf n))
  | bytes {n : Nat} (pos : 1 ≤ n) (bound : n ≤ 32) : Sized "bytes" n (.fixedBytes n)

/-- The words for the elementary types, with something before the numeral where there is one. -/
inductive Spells (lead : String) : String → Ty → Prop where
  | bool : Spells lead "bool" .bool
  | string : Spells lead "string" .string
  | address : Spells lead "address" .address
  | bytes : Spells lead "bytes" .bytes
  | byte : Spells lead "byte" (.fixedBytes 1)
  | uint : Spells lead "uint" .uint256
  | int : Spells lead "int" (.integer (.signedOf 256))
  | sized {word : String} {n : Nat} {t : Ty} (h : Sized word n t) : Spells lead (word ++ lead ++ toString n) t

/-- The keywords of the language for its elementary types. -/
abbrev Keyword : String → Ty → Prop := Spells ""

variable {s word lead : String} {t : Ty} {n : Nat} {cs : List Char}

/-- What stands before a numeral is of no account where there is none. -/
theorem Spells.elim (h : Spells lead s t) :
    (∀ lead', Spells lead' s t) ∨ ∃ word n, Sized word n t ∧ s = word ++ lead ++ toString n := by
  cases h with
  | bool => exact .inl fun _ => .bool
  | string => exact .inl fun _ => .string
  | address => exact .inl fun _ => .address
  | bytes => exact .inl fun _ => .bytes
  | byte => exact .inl fun _ => .byte
  | uint => exact .inl fun _ => .uint
  | int => exact .inl fun _ => .int
  | sized sized => exact .inr ⟨_, _, sized, rfl⟩

theorem integerBits_eq_some_iff : integerBits? cs = some n ↔
    cs = [] ∧ n = 256 ∨ (0 < n ∧ n ≤ 256 ∧ 8 ∣ n) ∧ size? cs = some n := by
  unfold integerBits?
  by_cases absent : cs = []
  · subst absent
    simp [size?, numeral?, eq_comm]
  · simp only [absent, if_false, false_and, false_or, Option.filter_eq_some_iff, Bool.and_eq_true,
      decide_eq_true_eq, Nat.dvd_iff_mod_eq_zero]
    tauto

/-- A name with its size behind it, or an integer's name alone. -/
theorem ofSizedName_eq_some_iff : ofSizedName? cs = some t ↔
    cs = "uint".toList ∧ t = .uint256 ∨ cs = "int".toList ∧ t = .integer (.signedOf 256) ∨
      ∃ word n size, Sized word n t ∧ size? size = some n ∧ cs = word.toList ++ size := by
  constructor
  · intro found
    unfold ofSizedName? at found
    split at found
    · next size =>
      obtain ⟨n, bits, rfl⟩ := Option.map_eq_some_iff.1 found
      rcases integerBits_eq_some_iff.1 bits with ⟨rfl, rfl⟩ | ⟨⟨pos, bound, bytes⟩, digits⟩
      · exact .inl ⟨rfl, rfl⟩
      · exact .inr (.inr ⟨"uint", n, size, .uint pos bound bytes, digits, rfl⟩)
    · next size =>
      obtain ⟨n, bits, rfl⟩ := Option.map_eq_some_iff.1 found
      rcases integerBits_eq_some_iff.1 bits with ⟨rfl, rfl⟩ | ⟨⟨pos, bound, bytes⟩, digits⟩
      · exact .inr (.inl ⟨rfl, rfl⟩)
      · exact .inr (.inr ⟨"int", n, size, .int pos bound bytes, digits, rfl⟩)
    · next size =>
      obtain ⟨n, filtered, rfl⟩ := Option.map_eq_some_iff.1 found
      obtain ⟨digits, bounds⟩ := Option.filter_eq_some_iff.1 filtered
      simp only [Bool.and_eq_true, decide_eq_true_eq] at bounds
      exact .inr (.inr ⟨"bytes", n, size, .bytes bounds.1 bounds.2, digits, rfl⟩)
    · cases found
  · have bits : ∀ {n size}, 0 < n → n ≤ 256 → 8 ∣ n → size? size = some n → integerBits? size = some n :=
      fun pos bound bytes digits => integerBits_eq_some_iff.2 (.inr ⟨⟨pos, bound, bytes⟩, digits⟩)
    rintro (⟨rfl, rfl⟩ | ⟨rfl, rfl⟩ | ⟨word, n, size, sized, digits, rfl⟩)
    · rfl
    · rfl
    · cases sized with
      | uint pos bound bytes => exact Option.map_eq_some_iff.2 ⟨n, bits pos bound bytes digits, rfl⟩
      | int pos bound bytes => exact Option.map_eq_some_iff.2 ⟨n, bits pos bound bytes digits, rfl⟩
      | bytes pos bound =>
          refine Option.map_eq_some_iff.2 ⟨n, Option.filter_eq_some_iff.2 ⟨digits, ?_⟩, rfl⟩
          simp [pos, bound]

theorem ofName_of_not_mem (other : s ∉ ["bool", "string", "address", "bytes", "byte"]) :
    ofName? s = ofSizedName? s.toList := by
  unfold ofName?
  split <;> first | rfl | exact absurd (by simp) other

/-- With something behind it, a name that takes a size is no other name. -/
theorem ofName_append (sized : Sized word n t) {size : String} (some : size ≠ "") :
    ofName? (word ++ size) = ofSizedName? (word.toList ++ size.toList) := by
  rw [ofName_of_not_mem, String.toList_append]
  intro member
  have lists := List.mem_map_of_mem (f := String.toList) member
  rw [String.toList_append] at lists
  cases sized <;> simp [some] at lists

theorem ofName_eq_some_iff : ofName? s = some t ↔ ∃ lead, IsLead lead ∧ Spells lead s t := by
  have none : IsLead "" := ⟨0, .inl rfl⟩
  constructor
  · intro found
    by_cases alone : s ∈ ["bool", "string", "address", "bytes", "byte"]
    · refine ⟨"", none, ?_⟩
      simp only [List.mem_cons, List.not_mem_nil, or_false] at alone
      rcases alone with rfl | rfl | rfl | rfl | rfl <;> cases found
      · exact .bool
      · exact .string
      · exact .address
      · exact .bytes
      · exact .byte
    · rw [ofName_of_not_mem alone, ofSizedName_eq_some_iff] at found
      rcases found with ⟨same, rfl⟩ | ⟨same, rfl⟩ | ⟨word, n, size, sized, digits, same⟩
      · obtain rfl := String.toList_inj.1 same
        exact ⟨"", none, .uint⟩
      · obtain rfl := String.toList_inj.1 same
        exact ⟨"", none, .int⟩
      · obtain ⟨lead, isLead, rfl⟩ := size_eq_some_iff.1 digits
        rw [← String.toList_append, ← String.toList_append, ← String.append_assoc] at same
        obtain rfl := String.toList_inj.1 same
        exact ⟨lead, isLead, .sized sized⟩
  · rintro ⟨lead, isLead, spells⟩
    cases spells with
    | bool | string | address | bytes | byte | uint | int => rfl
    | @sized word n t sized =>
        have digits : size? (lead ++ toString n).toList = some n :=
          size_eq_some_iff.2 ⟨lead, isLead, String.toList_append⟩
        have some : lead ++ toString n ≠ "" := by
          intro same
          rw [same] at digits
          cases digits
        rw [String.append_assoc, ofName_append sized some]
        exact ofSizedName_eq_some_iff.2 (.inr (.inr ⟨word, n, _, sized, digits, rfl⟩))

theorem Keyword.named (h : Keyword s t) : ofName? s = some t :=
  ofName_eq_some_iff.2 ⟨"", ⟨0, .inl rfl⟩, h⟩

/-- The second names of three types, each with the first. -/
def Alias (s s' : String) : Prop :=
  (s, s') ∈ [("uint", "uint256"), ("int", "int256"), ("byte", "bytes1")]

instance (s s' : String) : Decidable (Alias s s') := inferInstanceAs (Decidable (_ ∈ _))

theorem Sized.text (h : Sized word n t) : t.text = word ++ toString n := by
  cases h <;> simp [Ty.text, IntegerType.unsigned, IntegerType.signedOf]

/-- A keyword is how its type is written, or its second name. -/
theorem Keyword.text (h : Keyword s t) : s = t.text ∨ Alias s t.text := by
  cases h with
  | bool | string | address | bytes => exact .inl rfl
  | byte | uint | int => exact .inr (by decide +kernel)
  | sized sized => exact .inl (by rw [sized.text, String.append_empty])

theorem Alias.unique {s s' full : String} (h : Alias s full) (h' : Alias s' full) : s = s' := by
  simp only [Alias, List.mem_cons, Prod.mk.injEq, List.not_mem_nil, or_false] at h h'
  rcases h with ⟨rfl, rfl⟩ | ⟨rfl, rfl⟩ | ⟨rfl, rfl⟩ <;> simpa [eq_comm] using h'

theorem Alias.shorter {s full : String} (h : Alias s full) : s.length < full.length := by
  simp only [Alias, List.mem_cons, Prod.mk.injEq, List.not_mem_nil, or_false] at h
  rcases h with ⟨rfl, rfl⟩ | ⟨rfl, rfl⟩ | ⟨rfl, rfl⟩ <;> decide

/-- Keywords of one type are the same or one is the second name for the other. -/
theorem Keyword.alias {s' : String} (h : Keyword s t) (h' : Keyword s' t) :
    s = s' ∨ Alias s s' ∨ Alias s' s := by
  rcases h.text with rfl | other <;> rcases h'.text with rfl | other'
  · exact .inl rfl
  · exact .inr (.inr other')
  · exact .inr (.inl other)
  · exact .inl (other.unique other')

/-- No keyword has a plus sign or zeros before its numeral: that is longer than its type
is written. -/
theorem not_keyword_of_lead {t' : Ty} (sized : Sized word n t) (isLead : IsLead lead) (some : lead ≠ "") :
    ¬ Keyword (word ++ lead ++ toString n) t' := by
  intro keyword
  have named := ofName_eq_some_iff.2 ⟨lead, isLead, .sized sized⟩
  obtain rfl := Option.some.inj (keyword.named.symm.trans named)
  have pos : lead.length ≠ 0 := by simpa using some
  have le : (word ++ lead ++ toString n).length ≤ t'.text.length := by
    rcases keyword.text with same | other
    · exact Nat.le_of_eq (congrArg String.length same)
    · exact Nat.le_of_lt other.shorter
  rw [sized.text] at le
  simp only [String.length_append] at le
  omega

end Ty
end SafeSubset
