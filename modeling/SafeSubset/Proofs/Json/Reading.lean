import SafeSubset.Json

/-! Reading JSON. The text is cut into symbols, and from these the value is put together.
Every value is read back from its layout. -/
namespace SafeSubset.Json

/-- What a text is made of, white space apart. -/
inductive Symbol where
  | openArray | closeArray | openObject | closeObject | comma | colon
  /-- A value that is one word. -/
  | word (j : Json)
  | string (s : String)

section Cutting

def isSpace (c : Char) : Bool := c = ' ' || c = '\t' || c = '\n' || c = '\r'

def mark? : Char → Option Symbol
  | '[' => some .openArray
  | ']' => some .closeArray
  | '\x7b' => some .openObject
  | '\x7d' => some .closeObject
  | ',' => some .comma
  | ':' => some .colon
  | _ => none

/-- The value that a word stands for. A number is written in one way only. -/
def wordValue? (word : List Char) : Option Json :=
  if word = ['n', 'u', 'l', 'l'] then some .null
  else if word = ['t', 'r', 'u', 'e'] then some (.bool true)
  else if word = ['f', 'a', 'l', 's', 'e'] then some (.bool false)
  else
    let n := Nat.ofDigitChars 10 word 0
    if Nat.toDigits 10 n = word then some (.number n) else none

/-- The character that a backslash and a letter stand for. -/
def unescaped? : Char → Option Char
  | '"' => some '"'
  | '\\' => some '\\'
  | '/' => some '/'
  | 'b' => some '\x08'
  | 'f' => some '\x0c'
  | 'n' => some '\n'
  | 'r' => some '\r'
  | 't' => some '\t'
  | _ => none

def hexValue? (c : Char) : Option Nat :=
  if '0' ≤ c ∧ c ≤ '9' then some (c.toNat - 48)
  else if 'a' ≤ c ∧ c ≤ 'f' then some (c.toNat - 87)
  else if 'A' ≤ c ∧ c ≤ 'F' then some (c.toNat - 55)
  else none

/-- Where a reader stands. Of a word or a string it knows the characters so far, the last
one first. -/
inductive Mode where
  | between
  | word (cs : List Char)
  | string (cs : List Char)
  /-- Behind a backslash. -/
  | escape (cs : List Char)
  /-- In a code of four digits, of which one is next and `left` more follow. -/
  | code (cs : List Char) (left value : Nat)

namespace Mode

/-- A character that begins something, with the symbols that it completes. -/
def start (c : Char) : Option (List Symbol × Mode) :=
  if isSpace c then some ([], between)
  else if c = '"' then some ([], string [])
  else if c.isAlphanum then some ([], word [c])
  else (mark? c).map fun s => ([s], between)

/-- What is complete once a word cannot go on. -/
def finish : Mode → Option (List Symbol)
  | between => some []
  | word cs => (wordValue? cs.reverse).map fun j => [.word j]
  | string _ | escape _ | code .. => none

def next (m : Mode) (c : Char) : Option (List Symbol × Mode) :=
  match m with
  | between => start c
  | word cs =>
      if c.isAlphanum then some ([], word (c :: cs))
      else (word cs).finish.bind fun ss => (start c).map fun (ts, m) => (ss ++ ts, m)
  | string cs =>
      if c = '"' then some ([.string (String.ofList cs.reverse)], between)
      else if c = '\\' then some ([], escape cs)
      else if c.toNat < 32 then none
      else some ([], string (c :: cs))
  | escape cs =>
      if c = 'u' then some ([], code cs 3 0)
      else (unescaped? c).map fun d => ([], string (d :: cs))
  | code cs left value =>
      (hexValue? c).bind fun digit =>
        let value := 16 * value + digit
        match left with
        | left + 1 => some ([], code cs left value)
        | 0 => if value.isValidChar then some ([], string (Char.ofNat value :: cs)) else none

end Mode

/-- Symbols in front of those of a rest that could be cut. -/
def emit (ss : List Symbol) (rest : Option (List Symbol)) : Option (List Symbol) := rest.map (ss ++ ·)

/-- The symbols of a text in which a reader stands in some mode. -/
def symbolsFrom : Mode → List Char → Option (List Symbol)
  | m, [] => m.finish
  | m, c :: cs => (m.next c).bind fun (ss, m) => emit ss (symbolsFrom m cs)

end Cutting

section Assembling

/-- What is open around a value: the items, or the members, in front of it, the last one
first. -/
inductive Frame where
  | items (done : List Json)
  | members (done : List (String × Json)) (key : String)

/-- What has been put together, with what is open around it, the innermost first. -/
inductive State where
  | value (outer : List Frame)
  | firstItem (outer : List Frame)
  | firstMember (outer : List Frame)
  | member (done : List (String × Json)) (outer : List Frame)
  | colon (done : List (String × Json)) (key : String) (outer : List Frame)
  /-- Behind a value. -/
  | complete (j : Json) (outer : List Frame)

namespace State

def startValue (outer : List Frame) : Symbol → Option State
  | .word j => some (complete j outer)
  | .string s => some (complete (.string s) outer)
  | .openArray => some (firstItem outer)
  | .openObject => some (firstMember outer)
  | _ => none

def next : State → Symbol → Option State
  | value outer, s => startValue outer s
  | firstItem outer, .closeArray => some (complete (.array []) outer)
  | firstItem outer, s => startValue (.items [] :: outer) s
  | firstMember outer, .closeObject => some (complete (.object []) outer)
  | firstMember outer, .string key => some (colon [] key outer)
  | member done outer, .string key => some (colon done key outer)
  | colon done key outer, .colon => some (value (.members done key :: outer))
  | complete j (.items done :: outer), .comma => some (value (.items (j :: done) :: outer))
  | complete j (.items done :: outer), .closeArray =>
      some (complete (.array (j :: done).reverse) outer)
  | complete j (.members done key :: outer), .comma => some (member ((key, j) :: done) outer)
  | complete j (.members done key :: outer), .closeObject =>
      some (complete (.object ((key, j) :: done).reverse) outer)
  | _, _ => none

end State

/-- The value that symbols make up, behind those that have led to a state. -/
def assemble : State → List Symbol → Option Json
  | .complete j [], [] => some j
  | _, [] => none
  | state, s :: ss => (state.next s).bind fun state => assemble state ss

/-- The value that a text is written for. -/
def read (text : String) : Option Json :=
  (symbolsFrom .between text.toList).bind (assemble (.value []))

end Assembling

section Access

def member? (key : String) : Json → Option Json
  | object ms => ms.lookup key
  | _ => none

def items? : Json → Option (List Json)
  | array js => some js
  | _ => none

def number? : Json → Option Nat
  | number n => some n
  | _ => none

def string? : Json → Option String
  | string s => some s
  | _ => none

end Access

mutual
/-- The symbols of the layout of a value. -/
def symbols : Json → List Symbol
  | null => [.word null]
  | bool b => [.word (bool b)]
  | number n => [.word (number n)]
  | string s => [.string s]
  | array [] => [.openArray, .closeArray]
  | array (j :: js) => .openArray :: (symbols j ++ symbolsItems js ++ [.closeArray])
  | object [] => [.openObject, .closeObject]
  | object ((key, j) :: ms) =>
      .openObject :: .string key :: .colon :: (symbols j ++ symbolsMembers ms ++ [.closeObject])

def symbolsItems : List Json → List Symbol
  | [] => []
  | j :: js => .comma :: (symbols j ++ symbolsItems js)

def symbolsMembers : List (String × Json) → List Symbol
  | [] => []
  | (key, j) :: ms => .comma :: .string key :: .colon :: (symbols j ++ symbolsMembers ms)
end

section Layout

variable {cs rest : List Char} {c : Char} {ss ts : List Symbol} {m : Mode}

@[simp] theorem emit_nil (x : Option (List Symbol)) : emit [] x = x := by
  simp [emit]

@[simp] theorem emit_emit (ss ts : List Symbol) (x : Option (List Symbol)) :
    emit ss (emit ts x) = emit (ss ++ ts) x := by
  simp [emit, Function.comp_def]

/-- Whether a word cannot go on into a text. -/
def Apart (cs : List Char) : Prop := ∀ c ∈ cs.head?, ¬ c.isAlphanum

theorem symbolsFrom_cons {m' : Mode} (step : m.next c = some (ss, m')) :
    symbolsFrom m (c :: cs) = emit ss (symbolsFrom m' cs) := by
  simp [symbolsFrom, step]

theorem symbolsFrom_silent {m' : Mode} (step : m.next c = some ([], m')) :
    symbolsFrom m (c :: cs) = symbolsFrom m' cs := by
  rw [symbolsFrom_cons step, emit_nil]

theorem symbolsFrom_space (space : isSpace c) : symbolsFrom .between (c :: cs) = symbolsFrom .between cs :=
  symbolsFrom_silent (if_pos space)

theorem symbolsFrom_lineStart (depth : Nat) :
    symbolsFrom .between ((lineStart depth).toList ++ cs) = symbolsFrom .between cs := by
  have spaces : ∀ n, symbolsFrom .between (List.replicate n ' ' ++ cs) = symbolsFrom .between cs := by
    intro n
    induction n with
    | zero => rfl
    | succ n ih =>
        rw [List.replicate_succ, List.cons_append, symbolsFrom_space (by decide), ih]
  have line : (lineStart depth).toList = '\n' :: List.replicate (2 * depth) ' ' := by
    simp [lineStart]
  rw [line, List.cons_append, symbolsFrom_space (by decide), spaces]

/-- A word ends where it cannot go on. -/
theorem symbolsFrom_finish (apart : Apart rest) :
    symbolsFrom (.word cs) rest =
      (Mode.word cs).finish.bind fun ss => emit ss (symbolsFrom .between rest) := by
  cases rest with
  | nil =>
      have ends : ∀ ss, emit ss (symbolsFrom .between []) = some ss := by
        simp [symbolsFrom, Mode.finish, emit]
      simp only [ends, Option.bind_fun_some]
      rfl
  | cons c rest =>
      have other : c.isAlphanum = false := by simpa using apart c rfl
      cases finish : (Mode.word cs).finish with
      | none => simp [symbolsFrom, Mode.next, other, finish]
      | some ss =>
          cases begun : Mode.start c with
          | none => simp [symbolsFrom, Mode.next, other, finish, begun, emit]
          | some r => simp [symbolsFrom, Mode.next, other, finish, begun]

theorem symbolsFrom_inside (word : ∀ c ∈ cs, c.isAlphanum) (front : List Char) :
    symbolsFrom (.word front) (cs ++ rest) = symbolsFrom (.word (cs.reverse ++ front)) rest := by
  induction cs generalizing front with
  | nil => rfl
  | cons c cs ih =>
      have step : (Mode.word front).next c = some ([], .word (c :: front)) :=
        if_pos (word c List.mem_cons_self)
      have others := ih fun d member => word d (List.mem_cons_of_mem c member)
      rw [List.cons_append, symbolsFrom_silent step, others, List.reverse_cons, List.append_assoc,
        List.singleton_append]

theorem isSpace_of_isAlphanum (letter : c.isAlphanum) : isSpace c = false ∧ c ≠ '"' := by
  constructor
  · refine Bool.eq_false_iff.2 fun space => ?_
    simp only [isSpace, Bool.or_eq_true, decide_eq_true_eq] at space
    rcases space with ((rfl | rfl) | rfl) | rfl <;> simp at letter
  · rintro rfl
    simp at letter

/-- A word is read as the value that it stands for. -/
theorem symbolsFrom_word (cs : List Char) {j : Json} (some : cs ≠ []) (word : ∀ c ∈ cs, c.isAlphanum)
    (value : wordValue? cs = .some j) (apart : Apart rest) :
    symbolsFrom .between (cs ++ rest) = emit [.word j] (symbolsFrom .between rest) := by
  obtain ⟨c, cs, rfl⟩ := List.exists_cons_of_ne_nil some
  have letter := word c List.mem_cons_self
  obtain ⟨space, quote⟩ := isSpace_of_isAlphanum letter
  have step : Mode.between.next c = .some ([], .word [c]) := by
    simp [Mode.next, Mode.start, space, quote, letter]
  rw [List.cons_append, symbolsFrom_silent step,
    symbolsFrom_inside (fun d member => word d (List.mem_cons_of_mem c member)),
    symbolsFrom_finish apart]
  simp [Mode.finish, value]

theorem wordValue_toDigits (n : Nat) : wordValue? (Nat.toDigits 10 n) = some (.number n) := by
  have digits : ∀ c ∈ Nat.toDigits 10 n, c.isDigit := fun c member =>
    Nat.isDigit_of_mem_toDigits (b := 10) (by decide) (by decide) member
  have other : ∀ w : List Char, (∃ c ∈ w, ¬ c.isDigit) → Nat.toDigits 10 n ≠ w := by
    rintro w ⟨c, member, letter⟩ rfl
    exact letter (digits c member)
  rw [wordValue?, if_neg (other _ ⟨'n', by decide⟩), if_neg (other _ ⟨'t', by decide⟩),
    if_neg (other _ ⟨'f', by decide⟩), Nat.ofDigitChars_ten_toDigits]
  exact if_pos rfl

theorem symbolsFrom_mark {s : Symbol} (mark : mark? c = some s) :
    symbolsFrom .between (c :: cs) = emit [s] (symbolsFrom .between cs) := by
  have step : Mode.between.next c = some ([s], .between) := by
    unfold mark? at mark
    split at mark <;> cases mark <;> rfl
  exact symbolsFrom_cons step

/-- The four digits of the code of a control character. -/
theorem controlDigits_control : ∀ n : Fin 32, ∃ d₁ d₂ d₃ d₄,
    controlDigits (Char.ofNat n.val) = [d₁, d₂, d₃, d₄] ∧ hexValue? d₁ = some 0 ∧
    hexValue? d₂ = some 0 ∧ hexValue? d₃ = some (n.val / 16) ∧ hexValue? d₄ = some (n.val % 16) := by
  intro n
  refine ⟨'0', '0', Nat.digitChar (n / 16), Nat.digitChar (n % 16), ?_⟩
  revert n
  decide +kernel

theorem symbolsFrom_control (control : c.toNat < 32) (front : List Char) :
    symbolsFrom (.string front) ('\\' :: 'u' :: controlDigits c ++ cs) =
      symbolsFrom (.string (c :: front)) cs := by
  obtain ⟨d₁, d₂, d₃, d₄, digits, first, second, third, fourth⟩ :=
    controlDigits_control ⟨c.toNat, control⟩
  have code : 16 * (c.toNat / 16) + c.toNat % 16 = c.toNat := Nat.div_add_mod _ _
  have last : (Mode.code front 0 (c.toNat / 16)).next d₄ = some ([], .string (c :: front)) := by
    have valid : c.toNat.isValidChar := .inl (by omega)
    simp [Mode.next, fourth, code, valid]
  rw [Char.ofNat_toNat] at digits
  rw [digits]
  calc
    _ = symbolsFrom (.escape front) ('u' :: d₁ :: d₂ :: d₃ :: d₄ :: cs) := symbolsFrom_silent rfl
    _ = symbolsFrom (.code front 3 0) (d₁ :: d₂ :: d₃ :: d₄ :: cs) := symbolsFrom_silent rfl
    _ = symbolsFrom (.code front 2 0) (d₂ :: d₃ :: d₄ :: cs) :=
      symbolsFrom_silent (by simp [Mode.next, first])
    _ = symbolsFrom (.code front 1 0) (d₃ :: d₄ :: cs) := symbolsFrom_silent (by simp [Mode.next, second])
    _ = symbolsFrom (.code front 0 (c.toNat / 16)) (d₄ :: cs) :=
      symbolsFrom_silent (by simp [Mode.next, third])
    _ = symbolsFrom (.string (c :: front)) cs := symbolsFrom_silent last

/-- A character stands for itself, or it is escaped by a letter or by its code. -/
theorem escapedChar_cases (c : Char) :
    (∃ l, escapedChar c = ['\\', l] ∧ unescaped? l = some c ∧ l ≠ 'u') ∨
    (escapedChar c = '\\' :: 'u' :: controlDigits c ∧ c.toNat < 32) ∨
    (escapedChar c = [c] ∧ c ≠ '"' ∧ c ≠ '\\' ∧ ¬ c.toNat < 32) := by
  by_cases letter : c ∈ ['"', '\\', '\x08', '\x0c', '\n', '\r', '\t']
  · left
    simp only [List.mem_cons, List.not_mem_nil, or_false] at letter
    rcases letter with rfl | rfl | rfl | rfl | rfl | rfl | rfl <;>
      exact ⟨_, rfl, rfl, by decide⟩
  · right
    simp only [List.mem_cons, List.not_mem_nil, or_false, not_or] at letter
    by_cases control : c.toNat < 32
    · exact .inl ⟨by simp [escapedChar, letter, control], control⟩
    · exact .inr ⟨by simp [escapedChar, letter, control], letter.1, letter.2.1, control⟩

/-- A character of a string is read back from its escaped form. -/
theorem symbolsFrom_escapedChar (c : Char) (front : List Char) :
    symbolsFrom (.string front) (escapedChar c ++ cs) = symbolsFrom (.string (c :: front)) cs := by
  rcases escapedChar_cases c with ⟨l, form, letter, other⟩ | ⟨form, control⟩ |
    ⟨form, quote, backslash, control⟩
  · rw [form]
    calc
      _ = symbolsFrom (.escape front) (l :: cs) := symbolsFrom_silent rfl
      _ = symbolsFrom (.string (c :: front)) cs :=
        symbolsFrom_silent (by simp [Mode.next, other, letter])
  · rw [form]
    exact symbolsFrom_control control front
  · rw [form]
    exact symbolsFrom_silent (by simp [Mode.next, quote, backslash, control])

theorem symbolsFrom_escaped (chars front : List Char) :
    symbolsFrom (.string front) (chars.flatMap escapedChar ++ cs) =
      symbolsFrom (.string (chars.reverse ++ front)) cs := by
  induction chars generalizing front with
  | nil => rfl
  | cons c chars ih =>
      rw [List.flatMap_cons, List.append_assoc, symbolsFrom_escapedChar, ih, List.reverse_cons,
        List.append_assoc, List.singleton_append]

/-- A string is read back between its quotes. -/
theorem symbolsFrom_quoted (s : String) :
    symbolsFrom .between ((quoted s).toList ++ cs) = emit [.string s] (symbolsFrom .between cs) := by
  have text : (quoted s).toList ++ cs = '"' :: (s.toList.flatMap escapedChar ++ '"' :: cs) := by
    simp [quoted]
  have ends : (Mode.string s.toList.reverse).next '"' = some ([.string s], .between) := by
    simp [Mode.next]
  have begins : Mode.between.next '"' = some ([], .string []) := rfl
  rw [text, symbolsFrom_silent begins, symbolsFrom_escaped, List.append_nil, symbolsFrom_cons ends]

end Layout

section RoundTrip

variable {rest : List Char}

theorem apart_layoutItems (depth : Nat) (js : List Json) (apart : Apart rest) :
    Apart ((layoutItems depth js).toList ++ rest) := by
  cases js with
  | nil => simpa [layoutItems] using apart
  | cons j js => simp [layoutItems, Apart]

theorem apart_layoutMembers (depth : Nat) (ms : List (String × Json)) (apart : Apart rest) :
    Apart ((layoutMembers depth ms).toList ++ rest) := by
  cases ms with
  | nil => simpa [layoutMembers] using apart
  | cons m ms => simp [layoutMembers, Apart]

theorem apart_lineStart (depth : Nat) (rest : List Char) :
    Apart ((lineStart depth).toList ++ rest) := by
  simp [lineStart, Apart]

mutual
/-- A layout is cut into the symbols of its value, whatever stands behind it that is no part
of a word. -/
theorem symbolsFrom_layout (depth : Nat) (j : Json) (rest : List Char) (apart : Apart rest) :
    symbolsFrom .between ((layout depth j).toList ++ rest) =
      emit j.symbols (symbolsFrom .between rest) := by
  match j with
  | .null =>
      have word := symbolsFrom_word ['n', 'u', 'l', 'l'] (by decide) (by simp) rfl apart
      simpa [layout, symbols] using word
  | .bool true =>
      have word := symbolsFrom_word ['t', 'r', 'u', 'e'] (by decide) (by simp) rfl apart
      simpa [layout, symbols] using word
  | .bool false =>
      have word := symbolsFrom_word ['f', 'a', 'l', 's', 'e'] (by decide) (by simp) rfl apart
      simpa [layout, symbols] using word
  | .number n =>
      have digits : (layout depth (.number n)).toList = Nat.toDigits 10 n := Nat.toList_repr
      rw [digits]
      refine symbolsFrom_word _ Nat.toDigits_ne_nil ?_ (wordValue_toDigits n) apart
      intro c member
      have digit := Nat.isDigit_of_mem_toDigits (b := 10) (by decide) (by decide) member
      simp [Char.isAlphanum, digit]
  | .string s => exact symbolsFrom_quoted s
  | .array [] =>
      have text : (layout depth (.array [])).toList ++ rest = '[' :: ']' :: rest := by simp [layout]
      rw [text, symbolsFrom_mark rfl, symbolsFrom_mark rfl, emit_emit]
      rfl
  | .array (j :: js) =>
      have text : (layout depth (.array (j :: js))).toList ++ rest =
          '[' :: ((lineStart (depth + 1)).toList ++ ((layout (depth + 1) j).toList ++
            ((layoutItems (depth + 1) js).toList ++ ((lineStart depth).toList ++ ']' :: rest)))) := by
        simp [layout]
      have behind := apart_lineStart depth (']' :: rest)
      rw [text, symbolsFrom_mark rfl, symbolsFrom_lineStart,
        symbolsFrom_layout (depth + 1) j _ (apart_layoutItems _ _ behind),
        symbolsFrom_layoutItems (depth + 1) js _ behind, symbolsFrom_lineStart, symbolsFrom_mark rfl]
      simp [symbols]
  | .object [] =>
      have text : (layout depth (.object [])).toList ++ rest = '\x7b' :: '\x7d' :: rest := by
        simp [layout]
      rw [text, symbolsFrom_mark rfl, symbolsFrom_mark rfl, emit_emit]
      rfl
  | .object ((key, j) :: ms) =>
      have text : (layout depth (.object ((key, j) :: ms))).toList ++ rest =
          '\x7b' :: ((lineStart (depth + 1)).toList ++ ((quoted key).toList ++ ':' :: ' ' ::
            ((layout (depth + 1) j).toList ++ ((layoutMembers (depth + 1) ms).toList ++
              ((lineStart depth).toList ++ '\x7d' :: rest))))) := by
        simp [layout]
      have behind := apart_lineStart depth ('\x7d' :: rest)
      rw [text, symbolsFrom_mark rfl, symbolsFrom_lineStart, symbolsFrom_quoted, symbolsFrom_mark rfl,
        symbolsFrom_space rfl, symbolsFrom_layout (depth + 1) j _ (apart_layoutMembers _ _ behind),
        symbolsFrom_layoutMembers (depth + 1) ms _ behind, symbolsFrom_lineStart, symbolsFrom_mark rfl]
      simp [symbols]

theorem symbolsFrom_layoutItems (depth : Nat) (js : List Json) (rest : List Char) (apart : Apart rest) :
    symbolsFrom .between ((layoutItems depth js).toList ++ rest) =
      emit (symbolsItems js) (symbolsFrom .between rest) := by
  match js with
  | [] => simp [layoutItems, symbolsItems]
  | j :: js =>
      have text : (layoutItems depth (j :: js)).toList ++ rest =
          ',' :: ((lineStart depth).toList ++ ((layout depth j).toList ++
            ((layoutItems depth js).toList ++ rest))) := by
        simp [layoutItems]
      rw [text, symbolsFrom_mark rfl, symbolsFrom_lineStart,
        symbolsFrom_layout depth j _ (apart_layoutItems depth js apart),
        symbolsFrom_layoutItems depth js rest apart]
      simp [symbolsItems]

theorem symbolsFrom_layoutMembers (depth : Nat) (ms : List (String × Json)) (rest : List Char)
    (apart : Apart rest) :
    symbolsFrom .between ((layoutMembers depth ms).toList ++ rest) =
      emit (symbolsMembers ms) (symbolsFrom .between rest) := by
  match ms with
  | [] => simp [layoutMembers, symbolsMembers]
  | (key, j) :: ms =>
      have text : (layoutMembers depth ((key, j) :: ms)).toList ++ rest =
          ',' :: ((lineStart depth).toList ++ ((quoted key).toList ++ ':' :: ' ' ::
            ((layout depth j).toList ++ ((layoutMembers depth ms).toList ++ rest)))) := by
        simp [layoutMembers]
      rw [text, symbolsFrom_mark rfl, symbolsFrom_lineStart, symbolsFrom_quoted, symbolsFrom_mark rfl,
        symbolsFrom_space rfl, symbolsFrom_layout depth j _ (apart_layoutMembers depth ms apart),
        symbolsFrom_layoutMembers depth ms rest apart]
      simp [symbolsMembers]
end

variable {ss : List Symbol} {outer : List Frame}

theorem assemble_cons {state state' : State} {s : Symbol} (step : state.next s = some state') :
    assemble state (s :: ss) = assemble state' ss := by
  cases state with
  | complete j outer =>
      cases outer with
      | nil => cases step
      | cons f outer => simp [assemble, step]
  | _ => simp [assemble, step]

/-- An item may be the first one. -/
theorem assemble_firstItem (j : Json) :
    assemble (.firstItem outer) (j.symbols ++ ss) =
      assemble (.value (.items [] :: outer)) (j.symbols ++ ss) := by
  match j with
  | .null | .bool _ | .number _ | .string _ => simp [symbols, assemble, State.next]
  | .array [] | .array (_ :: _) | .object [] | .object ((_, _) :: _) =>
      simp [symbols, assemble, State.next]

mutual
/-- A value is put together from its symbols, whatever is open around it. -/
theorem assemble_symbols (j : Json) (outer : List Frame) (ss : List Symbol) :
    assemble (.value outer) (j.symbols ++ ss) = assemble (.complete j outer) ss := by
  match j with
  | .null | .bool _ | .number _ | .string _ => exact assemble_cons rfl
  | .array [] =>
      calc
        _ = assemble (.firstItem outer) (.closeArray :: ss) := assemble_cons rfl
        _ = _ := assemble_cons rfl
  | .array (j :: js) =>
      have items := assemble_symbolsItems js j [] outer ss
      calc
        _ = assemble (.firstItem outer) (j.symbols ++ (symbolsItems js ++ .closeArray :: ss)) := by
          simpa [symbols] using assemble_cons rfl
        _ = assemble (.complete j (.items [] :: outer)) (symbolsItems js ++ .closeArray :: ss) := by
          rw [assemble_firstItem, assemble_symbols j]
        _ = _ := items
  | .object [] =>
      calc
        _ = assemble (.firstMember outer) (.closeObject :: ss) := assemble_cons rfl
        _ = _ := assemble_cons rfl
  | .object ((key, j) :: ms) =>
      have members := assemble_symbolsMembers ms key j [] outer ss
      calc
        _ = assemble (.firstMember outer) (.string key :: .colon ::
              (j.symbols ++ (symbolsMembers ms ++ .closeObject :: ss))) := by
          simpa [symbols] using assemble_cons rfl
        _ = assemble (.colon [] key outer)
              (.colon :: (j.symbols ++ (symbolsMembers ms ++ .closeObject :: ss))) := assemble_cons rfl
        _ = assemble (.value (.members [] key :: outer))
              (j.symbols ++ (symbolsMembers ms ++ .closeObject :: ss)) := assemble_cons rfl
        _ = assemble (.complete j (.members [] key :: outer)) (symbolsMembers ms ++ .closeObject :: ss) :=
          assemble_symbols j _ _
        _ = _ := members

theorem assemble_symbolsItems (js : List Json) (j : Json) (done : List Json) (outer : List Frame)
    (ss : List Symbol) :
    assemble (.complete j (.items done :: outer)) (symbolsItems js ++ .closeArray :: ss) =
      assemble (.complete (.array (done.reverse ++ j :: js)) outer) ss := by
  match js with
  | [] =>
      have close : assemble (.complete j (.items done :: outer)) (.closeArray :: ss) =
          assemble (.complete (.array (j :: done).reverse) outer) ss := assemble_cons rfl
      simpa [symbolsItems] using close
  | k :: js =>
      have items := assemble_symbolsItems js k (j :: done) outer ss
      calc
        _ = assemble (.value (.items (j :: done) :: outer))
              (k.symbols ++ (symbolsItems js ++ .closeArray :: ss)) := by
          simpa [symbolsItems] using assemble_cons rfl
        _ = assemble (.complete k (.items (j :: done) :: outer)) (symbolsItems js ++ .closeArray :: ss) :=
          assemble_symbols k _ _
        _ = _ := by simpa using items

theorem assemble_symbolsMembers (ms : List (String × Json)) (key : String) (j : Json)
    (done : List (String × Json)) (outer : List Frame) (ss : List Symbol) :
    assemble (.complete j (.members done key :: outer)) (symbolsMembers ms ++ .closeObject :: ss) =
      assemble (.complete (.object (done.reverse ++ (key, j) :: ms)) outer) ss := by
  match ms with
  | [] =>
      have close : assemble (.complete j (.members done key :: outer)) (.closeObject :: ss) =
          assemble (.complete (.object ((key, j) :: done).reverse) outer) ss := assemble_cons rfl
      simpa [symbolsMembers] using close
  | (key', k) :: ms =>
      have members := assemble_symbolsMembers ms key' k ((key, j) :: done) outer ss
      calc
        _ = assemble (.member ((key, j) :: done) outer) (.string key' :: .colon ::
              (k.symbols ++ (symbolsMembers ms ++ .closeObject :: ss))) := by
          simpa [symbolsMembers] using assemble_cons rfl
        _ = assemble (.colon ((key, j) :: done) key' outer)
              (.colon :: (k.symbols ++ (symbolsMembers ms ++ .closeObject :: ss))) := assemble_cons rfl
        _ = assemble (.value (.members ((key, j) :: done) key' :: outer))
              (k.symbols ++ (symbolsMembers ms ++ .closeObject :: ss)) := assemble_cons rfl
        _ = assemble (.complete k (.members ((key, j) :: done) key' :: outer))
              (symbolsMembers ms ++ .closeObject :: ss) := assemble_symbols k _ _
        _ = _ := by simpa using members
end

/-- Every value is read back from its layout. -/
theorem read_pretty (j : Json) : read j.pretty = some j := by
  have cut : symbolsFrom .between j.pretty.toList = some j.symbols := by
    have ends : symbolsFrom .between [] = some [] := rfl
    simpa [ends, emit, pretty] using symbolsFrom_layout 0 j [] nofun
  rw [read, cut, Option.bind_some, ← List.append_nil j.symbols, assemble_symbols]
  rfl

end RoundTrip
end SafeSubset.Json
