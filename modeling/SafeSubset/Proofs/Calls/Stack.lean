import Mathlib.Algebra.BigOperators.Group.List.Lemmas
import Mathlib.Algebra.Ring.Nat
import SafeSubset.Proofs.Calls.Verdict

/-! The search for a cycle as a loop over a stack of edges, round by round. A round
looks at one start, tries one successor or takes one edge off the stack, so what is
left to do grows less each time and the loop ends. It ends with the cycle that the
check for recursion reports. -/
namespace SafeSubset.Calls

/-- Where the loop stands. -/
structure Stack where
  /-- The edges from which no search has begun yet. -/
  starts : List Nat
  /-- The edges on the path, the last one first. -/
  path : List Nat
  /-- The successors of each of them, and how many of these have been tried. -/
  frames : List (List Nat × Nat)
  /-- The edges that have been left behind. -/
  clean : List Nat
  deriving DecidableEq, Repr

/-- What a round comes to. -/
inductive Round where
  | goesOn (after : Stack)
  /-- An edge is pushed onto the path. -/
  | pushes (edge : Nat) (after : Stack)
  | ends (cycle : Option (List Nat))
  deriving DecidableEq, Repr

namespace Stack

/-- One round. Without a frame a search begins at the next start, unless that is clean;
with one, the next successor of the last edge is tried, or that edge is done with. -/
def round (successors : Nat → List Nat) : Stack → Round
  | ⟨[], _, [], _⟩ => .ends none
  | ⟨start :: starts, path, [], clean⟩ =>
      if start ∈ clean then .goesOn ⟨starts, path, [], clean⟩
      else .pushes start ⟨starts, [start], [(successors start, 0)], clean⟩
  | ⟨starts, path, (tries, tried) :: frames, clean⟩ =>
      match tries[tried]? with
      | none => .goesOn ⟨starts, path.tail, frames, path.head?.toList ++ clean⟩
      | some next =>
          if next ∈ path then .ends (some (path.reverse.dropWhile (· ≠ next)))
          else if next ∈ clean then .goesOn ⟨starts, path, (tries, tried + 1) :: frames, clean⟩
          else .pushes next
            ⟨starts, next :: path, (successors next, 0) :: (tries, tried + 1) :: frames, clean⟩

/-- The loop comes to a stack after some rounds, which have pushed the given edges, the
last one first. -/
inductive Reaches (successors : Nat → List Nat) (first : Stack) :
    (rounds : Nat) → (pushed : List Nat) → Stack → Prop where
  | first : Reaches successors first 0 [] first
  | goesOn {rounds : Nat} {pushed : List Nat} {s t : Stack} (before : Reaches successors first rounds pushed s)
      (round : s.round successors = .goesOn t) : Reaches successors first (rounds + 1) pushed t
  | pushes {rounds edge : Nat} {pushed : List Nat} {s t : Stack}
      (before : Reaches successors first rounds pushed s)
      (round : s.round successors = .pushes edge t) :
      Reaches successors first (rounds + 1) (edge :: pushed) t

/-- The path with the successors that are still untried. -/
def trail (s : Stack) : Trail := List.zipWith (fun edge f => (edge, f.1.drop f.2)) s.path s.frames

/-- How many rounds the starts and the frames are good for. -/
def remaining (s : Stack) : Nat := s.starts.length + (s.frames.map fun f => f.1.length - f.2 + 1).sum

end Stack

/-- How many rounds some edges are good for once they are pushed: one for each successor
and one to take the edge off. -/
def work (successors : Nat → List Nat) (edges : List Nat) : Nat :=
  (edges.map fun n => (successors n).length + 1).sum

/-- What a search finds that goes on from a trail, or else the searches from the starts. -/
def resume (successors : Nat → List Nat) (starts unmet : List Nat) (trail : Trail) : Option (List Nat) :=
  match search successors (unmet.length + 1) unmet trail with
  | .cycle edges => some edges
  | .clear unmet => firstCycle? successors starts unmet

variable {successors : Nat → List Nat} {all unmet starts path clean tries untried : List Nat}
  {edge next start tried rounds : Nat} {frames : List (List Nat × Nat)} {outer : Trail} {s t : Stack}
  {pushed : List Nat} {left : Nat → Prop}

section Resume

theorem work_erase (successors : Nat → List Nat) (new : next ∈ unmet) :
    (successors next).length + 1 + work successors (unmet.erase next) = work successors unmet :=
  List.sum_map_erase (fun n => (successors n).length + 1) new

/-- An untried successor that is on the path or has not been met is where a trail goes on. -/
theorem Trail.next?_stop (stop : next ∈ edge :: outer.edges ∨ next ∈ unmet) :
    Trail.next? unmet ((edge, next :: untried) :: outer) = some (next, (edge, untried) :: outer) := by
  have kept : ¬ (next ∉ edge :: outer.edges ∧ next ∉ unmet) := by tauto
  simp only [Trail.next?, List.dropWhile_cons, decide_eq_true_eq, kept, if_false]

/-- Any other one is passed over. -/
theorem Trail.next?_skip (off : next ∉ edge :: outer.edges) (met : next ∉ unmet) :
    Trail.next? unmet ((edge, next :: untried) :: outer) = Trail.next? unmet ((edge, untried) :: outer) := by
  have passed : decide (next ∉ edge :: outer.edges ∧ next ∉ unmet) = true := decide_eq_true ⟨off, met⟩
  rw [Trail.next?, List.dropWhile_cons, passed, if_pos rfl, Trail.next?]

theorem resume_congr {trail trail' : Trail} (same : trail.next? unmet = trail'.next? unmet) :
    resume successors starts unmet trail = resume successors starts unmet trail' := by
  simp only [resume, search, same]

theorem resume_nil : resume successors starts unmet [] = firstCycle? successors starts unmet := rfl

theorem firstCycle_start (new : start ∈ unmet) :
    firstCycle? successors (start :: starts) unmet =
      resume successors starts (unmet.erase start) [(start, successors start)] := by
  cases found : search successors unmet.length (unmet.erase start) [(start, successors start)] <;>
    simp only [firstCycle?, new, if_true, resume, List.length_erase_add_one new, found]

theorem resume_push (off : next ∉ edge :: outer.edges) (new : next ∈ unmet) :
    resume successors starts unmet ((edge, next :: untried) :: outer) =
      resume successors starts (unmet.erase next)
        ((next, successors next) :: (edge, untried) :: outer) := by
  have stays : next ∉ Trail.edges ((edge, untried) :: outer) := off
  unfold resume
  rw [search, Trail.next?_stop (.inr new)]
  simp only [stays, if_false, List.length_erase_add_one new]

theorem resume_closes (on : next ∈ edge :: outer.edges) :
    resume successors starts unmet ((edge, next :: untried) :: outer) =
      some ((edge :: outer.edges).reverse.dropWhile (· ≠ next)) := by
  have met : next ∈ Trail.edges ((edge, untried) :: outer) := on
  unfold resume
  rw [search, Trail.next?_stop (.inl on)]
  simp only [met, if_true]
  rfl

end Resume

section Exploring

/-- The first successor that is left is taken up. -/
theorem Exploring.onward (h : Exploring successors all unmet none left ((edge, next :: untried) :: outer)) :
    Exploring successors all unmet (some next) left ((edge, untried) :: outer) := by
  rw [← List.nil_append (next :: untried)] at h
  exact h.advance fun _ member => absurd member List.not_mem_nil

/-- Passing over a successor that lies behind. -/
theorem Exploring.skip (h : Exploring successors all unmet none left ((edge, next :: untried) :: outer))
    (old : left next) : Exploring successors all unmet none left ((edge, untried) :: outer) := by
  obtain ⟨succs, tries, -, rest⟩ := h.onward.pursued
  refine ⟨h.behind, h.places, h.apart, h.nodup, h.within, ⟨?_, tries, by simp, rest⟩⟩
  intro s hs
  rcases succs s hs with met | met | met
  · exact .inl met
  · exact .inr (.inl met)
  · exact .inr (.inl (Option.some.inj met ▸ old))

end Exploring

namespace Stack

/-- What holds of the loop after some rounds: how it stands is how a search stands that
finds the same in the end, with the edges in `unmet` not yet pushed. -/
structure Sound (successors : Nat → List Nat) (all : List Nat) (rounds : Nat) (pushed unmet : List Nat)
    (s : Stack) : Prop where
  exploring : Exploring successors all unmet none (· ∈ s.clean) s.trail
  frames : s.frames.map Prod.fst = s.path.map successors
  starts : ∀ n ∈ s.starts, n ∈ all
  pushed : (pushed ++ unmet).Perm all
  rounds : rounds + s.remaining + work successors unmet = all.length + work successors all
  answer : resume successors s.starts unmet s.trail = firstCycle? successors all all

theorem edges_zipWith (same : frames.map Prod.fst = path.map successors) :
    Trail.edges (List.zipWith (fun edge f => (edge, f.1.drop f.2)) path frames) = path := by
  induction path generalizing frames with
  | nil => simp [Trail.edges]
  | cons edge path ih =>
      cases frames with
      | nil => simp at same
      | cons frame frames =>
          simp only [List.map_cons, List.cons.injEq] at same
          simpa [Trail.edges] using ih same.2

theorem Sound.edges_trail (h : Sound successors all rounds pushed unmet s) : s.trail.edges = s.path :=
  edges_zipWith h.frames

/-- Before the first round. -/
theorem sound_first (exploring : Exploring successors all all none (fun _ => False) []) :
    Sound successors all 0 [] all ⟨all, [], [], []⟩ where
  exploring := by simpa [trail] using exploring
  frames := rfl
  starts _ member := member
  pushed := .refl all
  rounds := by simp [remaining]
  answer := rfl

/-- A clean start is passed over. -/
theorem Sound.pass (h : Sound successors all rounds pushed unmet ⟨start :: starts, path, [], clean⟩)
    (old : start ∈ clean) : Sound successors all (rounds + 1) pushed unmet ⟨starts, path, [], clean⟩ where
  exploring := h.exploring
  frames := h.frames
  starts n member := h.starts n (List.mem_cons_of_mem start member)
  pushed := h.pushed
  rounds := by
    have count := h.rounds
    simp only [remaining, List.length_cons] at count ⊢
    omega
  answer := by
    have met : start ∉ unmet := (h.exploring.apart start old).1
    have answer := h.answer
    simp only [trail, List.zipWith_nil_right, resume_nil, firstCycle?, met, if_false] at answer ⊢
    exact answer

/-- An edge that is on a trail or not met is not clean, and the other way round. -/
theorem Sound.unmet_of (h : Sound successors all rounds pushed unmet s) (inside : next ∈ all)
    (off : next ∉ s.path) (new : next ∉ s.clean) : next ∈ unmet := by
  rcases h.exploring.places next inside with met | met | met
  · exact met
  · exact absurd (h.edges_trail ▸ met) off
  · exact absurd met new

theorem perm_erase (perm : (pushed ++ unmet).Perm all) (new : next ∈ unmet) :
    (next :: pushed ++ unmet.erase next).Perm all := by
  have moved : (next :: (pushed ++ unmet.erase next)).Perm (pushed ++ next :: unmet.erase next) :=
    List.perm_middle.symm
  exact moved.trans (((List.perm_cons_erase new).symm.append_left pushed).trans perm)

/-- A search begins. -/
theorem Sound.begin (h : Sound successors all rounds pushed unmet ⟨start :: starts, path, [], clean⟩)
    (new : start ∉ clean) :
    Sound successors all (rounds + 1) (start :: pushed) (unmet.erase start)
      ⟨starts, [start], [(successors start, 0)], clean⟩ := by
  obtain rfl : path = [] := by simpa using h.frames.symm
  have fresh : start ∈ unmet := h.unmet_of (h.starts start List.mem_cons_self) List.not_mem_nil new
  refine ⟨h.exploring.enter fresh trivial, rfl, ?_, perm_erase h.pushed fresh, ?_, ?_⟩
  · exact fun n member => h.starts n (List.mem_cons_of_mem start member)
  · have count := h.rounds
    have cost := work_erase successors fresh
    simp only [remaining, List.length_cons, List.map_nil, List.map_cons, List.sum_cons, List.sum_nil] at count ⊢
    omega
  · rw [← h.answer]
    exact (firstCycle_start fresh).symm

/-- An edge none of whose successors is left to try is taken off the path. -/
theorem Sound.back (h : Sound successors all rounds pushed unmet
      ⟨starts, edge :: path, (tries, tried) :: frames, clean⟩) (done : tries[tried]? = none) :
    Sound successors all (rounds + 1) pushed unmet ⟨starts, path, frames, edge :: clean⟩ := by
  have none_left : tries.drop tried = [] := List.drop_eq_nil_of_le (List.getElem?_eq_none_iff.1 done)
  have exploring := h.exploring
  have answer := h.answer
  simp only [trail, List.zipWith_cons_cons, none_left] at exploring answer
  have grown : (fun n => n ∈ edge :: clean) = fun n => n ∈ clean ∨ n = edge := by
    funext n
    simp [or_comm]
  refine ⟨?_, (List.cons.inj h.frames).2, h.starts, h.pushed, ?_, ?_⟩
  · rw [show (fun n => n ∈ (Stack.mk starts path frames (edge :: clean)).clean) = _ from grown]
    exact exploring.back (by simp)
  · have count := h.rounds
    have spent := List.getElem?_eq_none_iff.1 done
    simp only [remaining, List.map_cons, List.sum_cons] at count ⊢
    omega
  · rw [← answer]
    exact resume_congr rfl

/-- Where a successor is left to try, it is the first one untried. -/
theorem drop_of_getElem? (found : tries[tried]? = some next) :
    tries.drop tried = next :: tries.drop (tried + 1) := by
  obtain ⟨bound, rfl⟩ := List.getElem?_eq_some_iff.1 found
  exact List.drop_eq_getElem_cons bound

/-- Trying one successor more uses up a round. -/
theorem length_sub_tried (found : tries[tried]? = some next) :
    tries.length - tried = tries.length - (tried + 1) + 1 := by
  have bound := (List.getElem?_eq_some_iff.1 found).1
  omega

/-- A clean successor is passed over. -/
theorem Sound.skip (h : Sound successors all rounds pushed unmet
      ⟨starts, edge :: path, (tries, tried) :: frames, clean⟩) (found : tries[tried]? = some next)
    (off : next ∉ edge :: path) (old : next ∈ clean) :
    Sound successors all (rounds + 1) pushed unmet
      ⟨starts, edge :: path, (tries, tried + 1) :: frames, clean⟩ := by
  have exploring := h.exploring
  have answer := h.answer
  have met : next ∉ unmet := (exploring.apart next old).1
  have edges := edges_zipWith (List.cons.inj h.frames).2
  simp only [trail, List.zipWith_cons_cons, drop_of_getElem? found] at exploring answer
  refine ⟨exploring.skip old, h.frames, h.starts, h.pushed, ?_, ?_⟩
  · have count := h.rounds
    simp only [remaining, List.map_cons, List.sum_cons, length_sub_tried found] at count ⊢
    omega
  · rw [← answer]
    exact (resume_congr (Trail.next?_skip (edges.symm ▸ off) met)).symm

/-- A successor that has not been met is pushed. -/
theorem Sound.push (inside : ∀ n ∈ all, ∀ m ∈ successors n, m ∈ all)
    (h : Sound successors all rounds pushed unmet
      ⟨starts, edge :: path, (tries, tried) :: frames, clean⟩) (found : tries[tried]? = some next)
    (off : next ∉ edge :: path) (new : next ∉ clean) :
    Sound successors all (rounds + 1) (next :: pushed) (unmet.erase next)
      ⟨starts, next :: edge :: path, (successors next, 0) :: (tries, tried + 1) :: frames, clean⟩ := by
  have exploring := h.exploring
  have answer := h.answer
  have edges := edges_zipWith (List.cons.inj h.frames).2
  simp only [trail, List.zipWith_cons_cons, drop_of_getElem? found] at exploring answer
  have known : next ∈ all :=
    inside edge (exploring.within edge (by simp [Trail.edges])) next (exploring.pursued.2.1 next (by simp))
  have fresh : next ∈ unmet := h.unmet_of known off new
  have further := exploring.onward
  refine ⟨further.enter fresh further.pursued, ?_, h.starts, perm_erase h.pushed fresh, ?_, ?_⟩
  · simpa using h.frames
  · have count := h.rounds
    have cost := work_erase successors fresh
    simp only [remaining, List.map_cons, List.sum_cons, length_sub_tried found] at count ⊢
    omega
  · rw [← answer]
    exact (resume_push (edges.symm ▸ off) fresh).symm

/-- What one round keeps, and what it ends with. -/
theorem Sound.round (inside : ∀ n ∈ all, ∀ m ∈ successors n, m ∈ all)
    (h : Sound successors all rounds pushed unmet s) :
    match s.round successors with
    | .goesOn t => Sound successors all (rounds + 1) pushed unmet t
    | .pushes edge t => Sound successors all (rounds + 1) (edge :: pushed) (unmet.erase edge) t
    | .ends cycle => cycle = firstCycle? successors all all := by
  obtain ⟨starts, path, frames, clean⟩ := s
  cases frames with
  | nil =>
      cases starts with
      | nil =>
          have answer := h.answer
          simpa only [Stack.round, trail, List.zipWith_nil_right, resume_nil, firstCycle?] using answer
      | cons start starts =>
          by_cases old : start ∈ clean
          · simpa only [Stack.round, old, if_true] using h.pass old
          · simpa only [Stack.round, old, if_false] using h.begin old
  | cons frame frames =>
      obtain ⟨tries, tried⟩ := frame
      cases path with
      | nil => simpa using h.frames
      | cons edge path =>
          cases found : tries[tried]? with
          | none =>
              simp only [Stack.round, found]
              exact h.back found
          | some next =>
              by_cases on : next ∈ edge :: path
              · have answer := h.answer
                have edges := edges_zipWith (List.cons.inj h.frames).2
                simp only [trail, List.zipWith_cons_cons, drop_of_getElem? found] at answer
                rw [resume_closes (edges.symm ▸ on), edges] at answer
                simpa only [Stack.round, found, on, if_true] using answer
              · by_cases old : next ∈ clean
                · simpa only [Stack.round, found, on, old, if_true, if_false] using h.skip found on old
                · simpa only [Stack.round, found, on, old, if_false] using h.push inside found on old

/-- What the rounds before keep. -/
theorem Reaches.sound (inside : ∀ n ∈ all, ∀ m ∈ successors n, m ∈ all)
    (first : Sound successors all 0 [] all s) (h : Reaches successors s rounds pushed t) :
    ∃ unmet, Sound successors all rounds pushed unmet t := by
  induction h with
  | first => exact ⟨all, first⟩
  | goesOn before round ih =>
      obtain ⟨unmet, sound⟩ := ih
      have kept := sound.round inside
      rw [round] at kept
      exact ⟨unmet, kept⟩
  | @pushes rounds edge pushed s t before round ih =>
      obtain ⟨unmet, sound⟩ := ih
      have kept := sound.round inside
      rw [round] at kept
      exact ⟨unmet.erase edge, kept⟩

/-- The loop ends, as there is less to do after each round. -/
theorem Reaches.ends (inside : ∀ n ∈ all, ∀ m ∈ successors n, m ∈ all)
    (first : Sound successors all 0 [] all s) (h : Reaches successors s rounds pushed t) :
    ∃ rounds pushed t, Reaches successors s rounds pushed t ∧
      t.round successors = .ends (firstCycle? successors all all) := by
  induction todo : all.length + work successors all - rounds using Nat.strong_induction_on
    generalizing rounds pushed t with
  | h todo' ih =>
      subst todo
      obtain ⟨unmet, sound⟩ := h.sound inside first
      have kept := sound.round inside
      have count := sound.rounds
      cases round : t.round successors with
      | ends cycle =>
          rw [round] at kept
          exact ⟨rounds, pushed, t, h, kept ▸ round⟩
      | goesOn after =>
          rw [round] at kept
          have further := kept.rounds
          exact ih _ (by omega) (h.goesOn round) rfl
      | pushes edge after =>
          rw [round] at kept
          have further := kept.rounds
          exact ih _ (by omega) (h.pushes round) rfl

end Stack

namespace Graph

/-- The loop before its first round, with every edge as a start. -/
def stack (g : Graph) : Stack := ⟨List.range g.edges.length, [], [], []⟩

/-- How a stack is kept in order: there is one frame for each edge of the path, no edge is on
it twice, each leaves the end of the one before, and where one is clean so are its successors. -/
structure Orderly (g : Graph) (s : Stack) : Prop where
  parallel : s.path.length = s.frames.length
  distinct : s.path.Nodup
  connected : s.path.reverse.IsChain fun a b =>
    ∃ e f, g.edges[a]? = some e ∧ g.edges[b]? = some f ∧ f.caller.id = e.callee.id
  apart : ∀ n ∈ s.path, n ∉ s.clean
  closed : ∀ n ∈ s.clean, ∀ m ∈ g.successors n, m ∈ s.clean

variable {g : Graph}

theorem sound_stack (g : Graph) :
    g.stack.Sound g.successors (List.range g.edges.length) 0 [] (List.range g.edges.length) :=
  Stack.sound_first g.exploring_start

theorem orderly_of_sound {all : List Nat} (h : s.Sound g.successors all rounds pushed unmet) :
    g.Orderly s where
  parallel := by simpa using (congrArg List.length h.frames).symm
  distinct := h.edges_trail ▸ (List.nodup_append.1 h.exploring.nodup).1
  connected := by
    have chain := h.exploring.pursued.chain
    rw [Option.toList_none, List.nil_append, h.edges_trail] at chain
    refine List.isChain_reverse.2 (chain.imp ?_)
    exact fun _ _ leads => leadsTo_iff.1 leads
  apart n on old := (h.exploring.apart n old).2 (h.edges_trail.symm ▸ on)
  closed := h.exploring.behind.closed

/-- In the loop over all starts the stack stays in order, every edge is pushed once at most,
and there is at most one round for each start, for each edge taken off and for each
successor of an edge. So the loop ends, and with the cycle of the check for recursion. -/
theorem search_linear (g : Graph) :
    (∀ rounds pushed s, g.stack.Reaches g.successors rounds pushed s →
      g.Orderly s ∧ pushed.Nodup ∧ (∀ n ∈ pushed, n < g.edges.length) ∧
        rounds ≤ g.edges.length + work g.successors (List.range g.edges.length)) ∧
    ∃ rounds pushed s cycle, g.stack.Reaches g.successors rounds pushed s ∧
      s.round g.successors = .ends cycle ∧ g.findCycle? = cycle ∧
      g.checkRecursion = cycle.elim g g.noteCycle := by
  have inside : ∀ n ∈ List.range g.edges.length, ∀ m ∈ g.successors n, m ∈ List.range g.edges.length :=
    fun n _ => successors_inside n
  constructor
  · intro rounds pushed s reaches
    obtain ⟨unmet, sound⟩ := reaches.sound inside g.sound_stack
    have distinct : (pushed ++ unmet).Nodup := sound.pushed.nodup_iff.2 List.nodup_range
    have count := sound.rounds
    rw [List.length_range] at count
    refine ⟨orderly_of_sound sound, (List.nodup_append.1 distinct).1, ?_, by omega⟩
    intro n member
    exact List.mem_range.1 (sound.pushed.subset (List.mem_append_left unmet member))
  · obtain ⟨rounds, pushed, s, reaches, ends⟩ := Stack.Reaches.ends inside g.sound_stack .first
    refine ⟨rounds, pushed, s, g.findCycle?, reaches, ends, rfl, ?_⟩
    unfold checkRecursion
    cases g.findCycle? <;> rfl

/-- A function calls another and a leaf, which that one calls too before it comes to a
third function that calls it back. -/
def sharedLeaf : Graph where
  functions := []
  edges := [(0, 3), (0, 1), (1, 3), (1, 2), (2, 1)].map fun ends =>
    ⟨⟨ends.1, "", .point 0⟩, ⟨ends.2, "", .point 0⟩⟩
  cycle := none
  diagnostics := []

theorem search_linear_sharedLeaf :
    ∃ s, sharedLeaf.stack.Reaches sharedLeaf.successors 8 [4, 3, 2, 1, 0] s ∧ s.path = [4, 3, 1] ∧
      s.clean = [2, 0] ∧ s.round sharedLeaf.successors = .ends (some [3, 4]) ∧
      sharedLeaf.findCycle? = some [3, 4] ∧ sharedLeaf.Orderly s := by
  have reaches : sharedLeaf.stack.Reaches sharedLeaf.successors 8 [4, 3, 2, 1, 0]
      ⟨[2, 3, 4], [4, 3, 1], [([2, 3], 1), ([4], 1), ([2, 3], 2)], [2, 0]⟩ := by
    have leaf : sharedLeaf.stack.Reaches sharedLeaf.successors 2 [0] ⟨[1, 2, 3, 4], [], [], [0]⟩ :=
      .goesOn (.pushes .first rfl) rfl
    have again : sharedLeaf.stack.Reaches sharedLeaf.successors 5 [2, 1, 0]
        ⟨[2, 3, 4], [1], [([2, 3], 1)], [2, 0]⟩ := .goesOn (.pushes (.pushes leaf rfl) rfl) rfl
    exact .goesOn (.pushes (.pushes again rfl) rfl) rfl
  obtain ⟨orderly, -⟩ := (search_linear sharedLeaf).1 _ _ _ reaches
  exact ⟨_, reaches, rfl, rfl, rfl, by decide, orderly⟩

end Graph
end SafeSubset.Calls
