import Mathlib.Data.List.Nodup
import Mathlib.Tactic.SplitIfs
import SafeSubset.Proofs.Edits.Outermost

/-! Calls on pending edits, one after the other. What a call answers is made up of
portions of the source and of entries, which fill its range without overlap. An entry
inside one that a range puts out is pending no longer. An entry inside one that is
consumed by its own span stays pending. -/
namespace SafeSubset

/-- Whether the byte at an offset lies in the span. -/
def Span.holds (s : Span) (i : Nat) : Bool := s.start ≤ i && i < s.stop

theorem Span.holds_iff {s : Span} {i : Nat} : s.holds i = true ↔ s.start ≤ i ∧ i < s.stop := by
  simp [holds]

namespace Edits

/-- A portion of what a call answers: a stretch of the source as it is, or the text of an
entry for the stretch that it stands for. -/
inductive Portion where
  | copied (span : Span)
  | entry (e : Edit)

namespace Portion

def span : Portion → Span
  | .copied s => s
  | .entry e => e.1

def text (source : Source) : Portion → Source
  | .copied s => source.slice s
  | .entry e => e.2

def entry? : Portion → Option Edit
  | .copied _ => none
  | .entry e => some e

end Portion

/-- The source from an offset to a stop with entries in place, portion by portion. -/
def portions (stop : Nat) : (offset : Nat) → List Edit → List Portion
  | offset, [] => [.copied ⟨offset, stop⟩]
  | offset, e :: es => .copied ⟨offset, e.1.start⟩ :: .entry e :: portions stop e.1.stop es

variable {source : Source} {offset stop i : Nat} {range s : Span} {ds : List Edit} {d e f : Edit}

theorem text_portions :
    (portions stop offset ds).flatMap (Portion.text source) = substituted source stop offset ds := by
  induction ds generalizing offset with
  | nil => simp [portions, substituted, Portion.text]
  | cons e es ih => simp [portions, substituted, Portion.text, ih]

theorem entries_portions : (portions stop offset ds).filterMap Portion.entry? = ds := by
  induction ds generalizing offset with
  | nil => rfl
  | cons e es ih => simp [portions, List.filterMap_cons, Portion.entry?, ih]

/-- Entries one behind the other leave each byte between the two offsets to one portion. -/
theorem countP_portions (arranged : Arranged offset (ds.map Prod.fst) stop) :
    (portions stop offset ds).countP (fun p => p.span.holds i) =
      if (Span.mk offset stop).holds i then 1 else 0 := by
  induction ds generalizing offset with
  | nil => simp [portions, Portion.span]
  | cons e es ih =>
      obtain ⟨-⟩ | ⟨from_le, -, forward, rest⟩ := arranged
      have le := rest.le
      simp only [portions, List.countP_cons, ih rest]
      simp only [Portion.span, Span.holds_iff]
      split_ifs <;> omega

/-- A call on pending edits. -/
inductive Call where
  | insert (span : Span) (text : Source)
  | insertAt (offset : Nat) (text : Source)
  | consume (span : Span)
  | extract (range : Span)
  deriving DecidableEq

namespace Call

/-- The span that a call is about. -/
def place : Call → Span
  | .insert s _ => s
  | .insertAt offset _ => .point offset
  | .consume s => s
  | .extract r => r

/-- The call is about a span of the source. -/
def Valid (source : Source) (c : Call) : Prop :=
  c.place.start ≤ c.place.stop ∧ c.place.stop ≤ source.byteLength

instance (source : Source) (c : Call) : Decidable (c.Valid source) :=
  inferInstanceAs (Decidable (_ ∧ _))

/-- What is pending after a call. -/
def apply (source : Source) (es : Edits) : Call → Edits
  | .insert s text => es.insert s text
  | .insertAt offset text => es.insertAt offset text
  | .consume s => (es.consume source s).2
  | .extract r => (es.extract source r).2

/-- The text that a call answers. A call that records something answers none. -/
def answer (source : Source) (es : Edits) : Call → Source
  | .insert _ _ | .insertAt _ _ => []
  | .consume s => (es.consume source s).1
  | .extract r => (es.extract source r).1

/-- The portions of what a call answers. -/
def portions (es : Edits) : Call → List Portion
  | .insert _ _ | .insertAt _ _ => []
  | .consume s =>
      match es.get? s with
      | some text => [.entry (s, text)]
      | none => Edits.portions s.stop s.start (kept s.start (es.taken s))
  | .extract r => Edits.portions r.stop r.start (kept r.start (es.taken r))

/-- The entries whose texts a call puts out. -/
def emitted (es : Edits) (c : Call) : List Edit := (c.portions es).filterMap Portion.entry?

end Call

/-- What is pending after some calls. -/
def run (source : Source) (es : Edits) (calls : List Call) : Edits :=
  calls.foldl (fun es c => c.apply source es) es

/-- The span of each call together with the portions of what it answers. -/
def answers (source : Source) : Edits → List Call → List (Span × List Portion)
  | _, [] => []
  | es, c :: cs => (c.place, c.portions es) :: answers source (c.apply source es) cs

/-- The calls that come put out no entry for a span, unless one has been recorded anew. -/
def NeverEmits (source : Source) (es : Edits) (s : Span) (calls : List Call) : Prop :=
  ∀ between again rest, calls = between ++ again :: rest →
    (∀ text, Call.insert s text ∉ between) →
      ∀ f ∈ again.emitted (run source es between), f.1 ≠ s

variable {es : Edits} {c : Call} {calls later : List Call}

section Calls

theorem text_extract : (es.extract source range).1 =
    (portions range.stop range.start (kept range.start (es.taken range))).flatMap
      (Portion.text source) := by
  rw [text_portions]
  exact fill_eq_kept

/-- What a call answers is the text of its portions. -/
theorem answer_portions : c.answer source es = (c.portions es).flatMap (Portion.text source) := by
  cases c with
  | insert | insertAt => rfl
  | extract r => exact text_extract
  | consume s =>
      simp only [Call.answer, Call.portions, consume]
      cases es.get? s with
      | some text => simp [Portion.text]
      | none => exact text_extract

theorem mem_of_get? {text : Source} (found : es.get? s = some text) : (s, text) ∈ es.entries := by
  obtain ⟨front, back, same, -⟩ := List.lookup_eq_some_iff.1 found
  simp [same]

theorem get?_of_mem (pending : e ∈ es.entries) : es.get? e.1 ≠ none := by
  intro missing
  simpa using List.lookup_eq_none_iff.1 missing e pending

/-- Pending entries for the same span are one. -/
theorem eq_of_span (first : d ∈ es.entries) (second : e ∈ es.entries) (same : d.1 = e.1) : d = e := by
  have nodup : (es.entries.map Prod.fst).Nodup := by
    rw [List.Nodup, List.pairwise_map]
    apply es.ordered.imp
    intro a b before same
    rw [same] at before
    exact Span.Before.irrefl _ before
  exact List.inj_on_of_nodup_map nodup first second same

/-- What a call puts out was pending. -/
theorem pending_of_emitted (out : e ∈ c.emitted es) : e ∈ es.entries := by
  have kept_pending : ∀ r, e ∈ kept r.start (es.taken r) → e ∈ es.entries := fun r member =>
    (mem_taken.1 (kept_sublist.subset member)).1
  cases c with
  | insert | insertAt => cases out
  | extract r =>
      rw [Call.emitted, Call.portions, entries_portions] at out
      exact kept_pending r out
  | consume s =>
      rw [Call.emitted, Call.portions] at out
      cases found : es.get? s with
      | some text =>
          rw [found] at out
          obtain rfl : e = (s, text) := by simpa [Portion.entry?] using out
          exact mem_of_get? found
      | none =>
          rw [found, entries_portions] at out
          exact kept_pending s out

/-- Reading a range takes up what lies inside an entry that it puts out. -/
theorem extract_inside (out : e ∈ kept range.start (es.taken range)) (wide : d.1.start < d.1.stop)
    (inside : e.1.Contains d.1) : d ∉ (es.extract source range).2.entries := by
  intro remains
  obtain ⟨pending, off⟩ := mem_extract.1 remains
  obtain ⟨-, starts, -, stops⟩ := mem_taken.1 (kept_sublist.subset out)
  obtain ⟨le, le'⟩ := inside
  exact off ⟨pending, by omega, by omega, by omega⟩

/-- An entry inside one that a call puts out is pending afterwards only where the call
consumed the other one by its own span. -/
theorem mem_apply_inside (out : e ∈ c.emitted es) (pending : d ∈ es.entries)
    (wide : d.1.start < d.1.stop) (inside : e.1.Contains d.1) :
    d ∈ (c.apply source es).entries ↔ c = .consume e.1 ∧ d.1 ≠ e.1 := by
  have known := pending_of_emitted out
  cases c with
  | insert | insertAt => cases out
  | extract r =>
      rw [Call.emitted, Call.portions, entries_portions] at out
      simpa [Call.apply] using extract_inside out wide inside
  | consume s =>
      rw [Call.emitted, Call.portions] at out
      simp only [Call.apply, consume]
      cases found : es.get? s with
      | some text =>
          rw [found] at out
          obtain rfl : e = (s, text) := by simpa [Portion.entry?] using out
          simp [filter, pending]
      | none =>
          rw [found, entries_portions] at out
          have other : s ≠ e.1 := by
            rintro rfl
            exact get?_of_mem known found
          simpa [other] using extract_inside out wide inside

theorem mem_insert {text : Source} (member : e ∈ (es.insert s text).entries) :
    e = (s, text) ∨ e ∈ es.entries := mem_insertEntry member

theorem mem_consume (member : e ∈ (es.consume source s).2.entries) : e ∈ es.entries := by
  rw [consume] at member
  split at member
  · exact (List.mem_filter.1 member).1
  · exact (mem_extract.1 member).1

/-- A call adds no entry but one for the span that it records. -/
theorem mem_apply (member : e ∈ (c.apply source es).entries) :
    e ∈ es.entries ∨ e.1 = c.place ∧ ((∃ text, c = .insert e.1 text) ∨ e.1.start = e.1.stop) := by
  cases c with
  | insert s text =>
      rcases mem_insert member with rfl | pending
      · exact .inr ⟨rfl, .inl ⟨text, rfl⟩⟩
      · exact .inl pending
  | insertAt offset text =>
      rcases mem_insert member with rfl | pending
      · exact .inr ⟨rfl, .inr rfl⟩
      · exact .inl pending
  | consume s => exact .inl (mem_consume member)
  | extract r => exact .inl (mem_extract.1 member).1

theorem Forward.apply (forward : es.Forward) (valid : c.Valid source) :
    (c.apply source es).Forward := by
  intro e member
  rcases mem_apply member with pending | ⟨same, -⟩
  · exact forward e pending
  · exact same ▸ valid.1

theorem absent_apply (wide : s.start < s.stop) (absent : ∀ f ∈ es.entries, f.1 ≠ s)
    (unrecorded : ∀ text, Call.insert s text ≠ c) : ∀ f ∈ (c.apply source es).entries, f.1 ≠ s := by
  intro f member
  rcases mem_apply member with pending | ⟨-, ⟨text, same⟩ | empty⟩
  · exact absent f pending
  · rintro rfl
    exact unrecorded text same.symm
  · rintro rfl
    omega

/-- A span for which no entry is pending stays without one until one is recorded for it. -/
theorem absent_run (wide : s.start < s.stop) (absent : ∀ f ∈ es.entries, f.1 ≠ s)
    (unrecorded : ∀ text, Call.insert s text ∉ calls) : ∀ f ∈ (run source es calls).entries, f.1 ≠ s := by
  induction calls generalizing es with
  | nil => exact absent
  | cons c calls ih =>
      apply ih
      · apply absent_apply wide absent
        rintro text rfl
        exact unrecorded text List.mem_cons_self
      · intro text member
        exact unrecorded text (List.mem_cons_of_mem c member)

theorem neverEmits_of_absent (wide : s.start < s.stop) (absent : ∀ f ∈ es.entries, f.1 ≠ s) :
    NeverEmits source es s calls := by
  intro between again rest _ unrecorded f out
  exact absent_run wide absent unrecorded f (pending_of_emitted out)

/-- The portions of what a call answers share no byte, and lie in the span of the call. -/
theorem countP_call (forward : es.Forward) (valid : c.Valid source) (i : Nat) :
    (c.portions es).countP (fun p => p.span.holds i) ≤ if c.place.holds i then 1 else 0 := by
  have range : ∀ r : Span, r.start ≤ r.stop →
      (portions r.stop r.start (kept r.start (es.taken r))).countP (fun p => p.span.holds i) =
        if r.holds i then 1 else 0 := fun r le => countP_portions (arranged_taken forward le)
  cases c with
  | insert | insertAt => exact Nat.zero_le _
  | extract r => exact Nat.le_of_eq (range r valid.1)
  | consume s =>
      simp only [Call.portions, Call.place]
      cases es.get? s with
      | some text => exact Nat.le_of_eq List.countP_singleton
      | none => exact Nat.le_of_eq (range s valid.1)

theorem countP_answers (forward : es.Forward) (valid : ∀ c ∈ calls, c.Valid source) (i : Nat) :
    ∀ a ∈ answers source es calls,
      a.2.countP (fun p => p.span.holds i) ≤ if a.1.holds i then 1 else 0 := by
  induction calls generalizing es with
  | nil => simp [answers]
  | cons c calls ih =>
      obtain ⟨first, rest⟩ := List.forall_mem_cons.1 valid
      intro a member
      rcases List.mem_cons.1 member with rfl | member
      · exact countP_call forward first i
      · exact ih (forward.apply first) rest a member

/-- What is answered for spans without a common byte represents each byte once at most. -/
theorem countP_apart {picked : List (Span × List Portion)}
    (each : ∀ a ∈ picked, a.2.countP (fun p => p.span.holds i) ≤ if a.1.holds i then 1 else 0)
    (apart : picked.Pairwise fun a b => ∀ i, a.1.holds i = true → b.1.holds i = false) :
    (picked.flatMap Prod.snd).countP (fun p => p.span.holds i) ≤ 1 := by
  induction picked with
  | nil => simp
  | cons a picked ih =>
      obtain ⟨others, rest⟩ := List.pairwise_cons.1 apart
      have first := each a List.mem_cons_self
      have later := fun b member => each b (List.mem_cons_of_mem a member)
      rw [List.flatMap_cons, List.countP_append]
      by_cases here : a.1.holds i = true
      · have none : (picked.flatMap Prod.snd).countP (fun p => p.span.holds i) = 0 := by
          rw [List.countP_eq_zero]
          intro p member
          obtain ⟨b, inside, part⟩ := List.mem_flatMap.1 member
          have empty := later b inside
          rw [others b inside i here, if_neg Bool.false_ne_true, Nat.le_zero, List.countP_eq_zero] at empty
          exact empty p part
        rw [if_pos here] at first
        omega
      · rw [if_neg here] at first
        have := ih later rest
        omega

theorem run_append (before : List Call) :
    run source es (before ++ calls) = run source (run source es before) calls := List.foldl_append

end Calls

/-- What becomes of the entries inside one that a call puts out, in every sequence of calls
on an empty set. Such an entry stays pending only where the call consumes the outer one by
its own span; else no call that comes puts it out, unless it is recorded anew. Of what is
answered for ranges that share no byte, each byte of the source is represented once at
most. -/
theorem inside_emitted (valid : ∀ c ∈ calls, c.Valid source) :
    (∀ es (c : Call), c.answer source es = (c.portions es).flatMap (Portion.text source)) ∧
    (∀ before call later, calls = before ++ call :: later →
      ∀ e ∈ call.emitted (run source empty before), ∀ d ∈ (run source empty before).entries,
        d.1.start < d.1.stop → e.1.Contains d.1 →
          (d ∈ (run source empty (before ++ [call])).entries ↔ call = .consume e.1 ∧ d.1 ≠ e.1) ∧
          (¬ (call = .consume e.1 ∧ d.1 ≠ e.1) →
            NeverEmits source (run source empty (before ++ [call])) d.1 later)) ∧
    ∀ picked : List (Span × List Portion), picked.Sublist (answers source empty calls) →
      (picked.Pairwise fun a b => ∀ i, a.1.holds i = true → b.1.holds i = false) →
        ∀ i, (picked.flatMap Prod.snd).countP (fun p => p.span.holds i) ≤ 1 := by
  refine ⟨fun es c => answer_portions, ?_, ?_⟩
  · intro before call later same e out d pending wide inside
    have after : run source empty (before ++ [call]) =
        call.apply source (run source empty before) := run_append before
    rw [after]
    have stays : d ∈ (call.apply source (run source empty before)).entries ↔
        call = .consume e.1 ∧ d.1 ≠ e.1 := mem_apply_inside out pending wide inside
    constructor
    · exact stays
    · intro other
      apply neverEmits_of_absent wide
      intro f member same
      have known : f ∈ (run source empty before).entries := by
        rcases mem_apply member with known | ⟨-, ⟨text, rfl⟩ | point⟩
        · exact known
        · cases out
        · rw [same] at point
          omega
      obtain rfl := eq_of_span known pending same
      exact other (stays.1 member)
  · intro picked sublist apart i
    have forward : empty.Forward := by simp [Forward, empty]
    apply countP_apart _ apart
    intro a member
    exact countP_answers forward valid i a (sublist.subset member)

/-- The sum and its second term are to be replaced. -/
def sumCalls : List Call := [.insert ⟨4, 13⟩ "SUM".toList, .insert ⟨8, 13⟩ "PRODUCT".toList]

/-- Once the sum has been put out with the source around it, its second term is not. -/
theorem inside_emitted_sum : (∀ c ∈ sumCalls ++ [.extract ⟨0, 14⟩, .consume ⟨8, 13⟩], c.Valid sumSource) ∧
    (⟨⟨4, 13⟩, "SUM".toList⟩ ∈ (Call.extract ⟨0, 14⟩).emitted (run sumSource empty sumCalls)) ∧
    NeverEmits sumSource (run sumSource empty (sumCalls ++ [.extract ⟨0, 14⟩])) ⟨8, 13⟩ [.consume ⟨8, 13⟩] := by
  have valid : ∀ c ∈ sumCalls ++ [.extract ⟨0, 14⟩, .consume ⟨8, 13⟩], c.Valid sumSource := by decide
  have out : ⟨⟨4, 13⟩, "SUM".toList⟩ ∈ (Call.extract ⟨0, 14⟩).emitted (run sumSource empty sumCalls) := by
    decide
  have pending : ⟨⟨8, 13⟩, "PRODUCT".toList⟩ ∈ (run sumSource empty sumCalls).entries := by decide
  obtain ⟨-, inner, -⟩ := inside_emitted valid
  obtain ⟨-, silent⟩ := inner sumCalls (.extract ⟨0, 14⟩) [.consume ⟨8, 13⟩] rfl _ out _ pending
    (by decide) (by decide)
  exact ⟨valid, out, silent (by decide)⟩

/-- The sum is put out by its own span, and then its second term with the source around it. -/
theorem inside_emitted_left : ∃ (before : List Call) (call again : Call) (e d : Edit),
    (∀ c ∈ before ++ [call, again], c.Valid sumSource) ∧
      e ∈ call.emitted (run sumSource empty before) ∧ d ∈ (run sumSource empty before).entries ∧
      d.1.start < d.1.stop ∧ e.1.Contains d.1 ∧
      d ∈ again.emitted (run sumSource empty (before ++ [call])) ∧
      again.answer sumSource (run sumSource empty (before ++ [call])) = "a = b + PRODUCT;".toList := by
  refine ⟨sumCalls, .consume ⟨4, 13⟩, .extract ⟨0, 14⟩, ⟨⟨4, 13⟩, "SUM".toList⟩,
    ⟨⟨8, 13⟩, "PRODUCT".toList⟩, ?_⟩
  decide

end Edits
end SafeSubset
