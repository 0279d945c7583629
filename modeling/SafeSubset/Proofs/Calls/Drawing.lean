import SafeSubset.Calls.Graphviz
import SafeSubset.Proofs.Calls.States
import Mathlib.Data.List.Basic

/-! Reading a drawing back off its Graphviz text. Each line of the text is read by itself,
and a cluster is what stands between the line that opens it and the next one that closes
it. What is drawn is read back wherever no name has a line break in it. -/
namespace SafeSubset.Calls

/-- What a line of the text says. -/
inductive Line where
  | opens (number : Nat) (name : String)
  | title (text : String)
  | node (id : Nat) (label : String)
  | closes
  | edge (caller callee : Nat) (red : Bool)
  /-- A line that says nothing of what is drawn. -/
  | other
  deriving DecidableEq

namespace Line

/-- The number in front of a text. -/
def number? (text : Source) : Option (Nat × Source) :=
  let digits := text.takeWhile Char.isDigit
  if digits = [] then none else some (Nat.ofDigitChars 10 digits 0, text.dropWhile Char.isDigit)

/-- The text up to the closing quote, without its escapes, and what follows. -/
def quoted? : Source → Option (Source × Source)
  | [] => none
  | '"' :: rest => some ([], rest)
  | '\\' :: c :: rest => (quoted? rest).map fun (cs, rest) => (c :: cs, rest)
  | c :: rest => (quoted? rest).map fun (cs, rest) => (c :: cs, rest)

def opens? (line : Source) : Option Line := do
  let rest ← line.dropPrefix? "    subgraph cluster_".toList
  let (number, rest) ← number? rest
  let rest ← rest.dropPrefix? ['_']
  if rest.dropWhile (· ≠ ' ') = [' ', '\x7b'] then
    some (opens number (String.ofList (rest.takeWhile (· ≠ ' '))))
  else none

def title? (line : Source) : Option Line := do
  let rest ← line.dropPrefix? "        label=\"".toList
  let (text, rest) ← quoted? rest
  if rest = [';'] then some (title (String.ofList text)) else none

def node? (line : Source) : Option Line := do
  let rest ← line.dropPrefix? "        fn".toList
  let (id, rest) ← number? rest
  let rest ← rest.dropPrefix? " [label=\"".toList
  let (text, rest) ← quoted? rest
  if rest = [']', ';'] then some (node id (String.ofList text)) else none

def edge? (line : Source) : Option Line := do
  let rest ← line.dropPrefix? "    fn".toList
  let (caller, rest) ← number? rest
  let rest ← rest.dropPrefix? " -> fn".toList
  let (callee, rest) ← number? rest
  if rest = [';'] then some (edge caller callee false)
  else if rest = " [color=red, penwidth=2];".toList then some (edge caller callee true)
  else none

def closes? (line : Source) : Option Line := do
  let rest ← line.dropPrefix? "    \x7d".toList
  if rest = [] then some closes else none

def read (line : Source) : Line :=
  (opens? line <|> title? line <|> node? line <|> closes? line <|> edge? line).getD other

def titled? : Line → Option String
  | title text => some text
  | _ => none

def declared? : Line → Option (Nat × String)
  | node id label => some (id, label)
  | _ => none

def drawn? : Line → Option ((Nat × Nat) × Bool)
  | edge caller callee red => some ((caller, callee), red)
  | _ => none

end Line

/-- A cluster with its titles and the nodes that are declared in it. -/
structure Cluster where
  number : Nat
  name : String
  titles : List String
  nodes : List (Nat × String)
  deriving DecidableEq

/-- The clusters of some lines. -/
def clusters : List Line → List Cluster
  | [] => []
  | .opens number name :: ls =>
      let inside := ls.takeWhile (· ≠ .closes)
      ⟨number, name, inside.filterMap Line.titled?, inside.filterMap Line.declared?⟩ :: clusters ls
  | _ :: ls => clusters ls

/-- What is drawn: the clusters, all nodes wherever they are declared, and the edges, each
with whether it is red. -/
structure Drawing where
  clusters : List Cluster
  nodes : List (Nat × String)
  edges : List ((Nat × Nat) × Bool)

def Drawing.ofLines (ls : List Line) : Drawing :=
  ⟨Calls.clusters ls, ls.filterMap Line.declared?, ls.filterMap Line.drawn?⟩

/-- The drawing that a text is for. -/
def Drawing.read (text : String) : Drawing :=
  .ofLines ((text.toList.splitOn '\n').map Line.read)

namespace Line

variable {rest : Source}

theorem number_digits (n : Nat) (ends : ∀ c ∈ rest.head?, c.isDigit = false) :
    number? ((toString n).toList ++ rest) = some (n, rest) := by
  have digits : (toString n).toList = Nat.toDigits 10 n := Nat.toList_repr
  have all : ∀ c ∈ Nat.toDigits 10 n, c.isDigit := fun c member =>
    Nat.isDigit_of_mem_toDigits (b := 10) (by decide) (by decide) member
  have taken : rest.takeWhile Char.isDigit = [] := by
    cases rest with
    | nil => rfl
    | cons c rest => simp [ends c rfl]
  have dropped : rest.dropWhile Char.isDigit = rest := by
    cases rest with
    | nil => rfl
    | cons c rest => simp [ends c rfl]
  rw [digits, number?, List.takeWhile_append_of_pos all, List.dropWhile_append_of_pos all, taken,
    dropped, List.append_nil, Nat.ofDigitChars_ten_toDigits]
  exact if_neg Nat.toDigits_ne_nil

theorem quoted_labelText (name : String) :
    quoted? ((labelText name).toList ++ '"' :: rest) = some (name.toList, rest) := by
  rw [labelText, String.toList_ofList]
  induction name.toList with
  | nil => rfl
  | cons c cs ih =>
      rw [List.flatMap_cons, List.append_assoc]
      by_cases backslash : c = '\\'
      · subst backslash
        simp [quoted?, ih]
      · by_cases quote : c = '"'
        · subst quote
          simp [quoted?, ih]
        · simp [quoted?, ih, backslash, quote]

theorem dropPrefix_append (p rest : Source) : (p ++ rest).dropPrefix? p = some rest :=
  List.dropPrefix?_append_of_beq rest (beq_self_eq_true p)

/-- The text of an edge's line. -/
def edgeText (caller callee : Nat) (red : Bool) : Source :=
  "    fn".toList ++ ((toString caller).toList ++ (" -> fn".toList ++ ((toString callee).toList ++
    ((if red then " [color=red, penwidth=2]".toList else []) ++ [';']))))

theorem read_edgeText (caller callee : Nat) (red : Bool) :
    read (edgeText caller callee red) = edge caller callee red := by
  have none : ∀ text : Source, opens? ("    fn".toList ++ text) = none ∧
      title? ("    fn".toList ++ text) = none ∧ node? ("    fn".toList ++ text) = none ∧
      closes? ("    fn".toList ++ text) = none := by
    simp [opens?, title?, node?, closes?, List.dropPrefix?]
  have edge : edge? (edgeText caller callee red) = some (edge caller callee red) := by
    have behind : ∀ c ∈ ((if red then " [color=red, penwidth=2]".toList else []) ++ [';']).head?,
        c.isDigit = false := by
      cases red <;> simp
    have first : ∀ rest, number? ((toString caller).toList ++ (" -> fn".toList ++ rest)) =
        some (caller, " -> fn".toList ++ rest) := fun rest => number_digits caller (by simp)
    unfold edge? edgeText
    simp only [dropPrefix_append, Option.bind_eq_bind, Option.bind_some,
      number_digits callee behind, first]
    cases red <;> simp
  obtain ⟨opens, title, node, closes⟩ : opens? (edgeText caller callee red) = .none ∧
      title? (edgeText caller callee red) = .none ∧ node? (edgeText caller callee red) = .none ∧
      closes? (edgeText caller callee red) = .none := none _
  simp [read, edge, opens, title, node, closes]

/-- The text of a node's line. -/
def nodeText (id : Nat) (label : String) : Source :=
  "        fn".toList ++ ((toString id).toList ++ (" [label=\"".toList ++ ((labelText label).toList ++
    ['"', ']', ';'])))

theorem read_nodeText (id : Nat) (label : String) : read (nodeText id label) = node id label := by
  have none : ∀ text : Source, opens? ("        fn".toList ++ text) = none ∧
      title? ("        fn".toList ++ text) = none := by
    simp [opens?, title?, List.dropPrefix?]
  have node : node? (nodeText id label) = some (node id label) := by
    have first : ∀ rest, number? ((toString id).toList ++ (" [label=\"".toList ++ rest)) =
        some (id, " [label=\"".toList ++ rest) := fun rest => number_digits id (by simp)
    have quoted : quoted? ((labelText label).toList ++ ['"', ']', ';']) = some (label.toList, [']', ';']) :=
      quoted_labelText label
    unfold node? nodeText
    simp only [dropPrefix_append, Option.bind_eq_bind, Option.bind_some, first, quoted]
    simp
  obtain ⟨opens, title⟩ : opens? (nodeText id label) = .none ∧ title? (nodeText id label) = .none :=
    none _
  simp [read, node, opens, title]

/-- The text of a cluster's title. -/
def titleText (text : String) : Source :=
  "        label=\"".toList ++ ((labelText text).toList ++ ['"', ';'])

theorem read_titleText (text : String) : read (titleText text) = title text := by
  have none : ∀ text : Source, opens? ("        label=\"".toList ++ text) = none := by
    simp [opens?, List.dropPrefix?]
  have title : title? (titleText text) = some (title text) := by
    have quoted : quoted? ((labelText text).toList ++ ['"', ';']) = some (text.toList, [';']) :=
      quoted_labelText text
    unfold title? titleText
    simp only [dropPrefix_append, Option.bind_eq_bind, Option.bind_some, quoted]
    simp
  have opens : opens? (titleText text) = .none := none _
  simp [read, title, opens]

/-- The text of the line that opens a cluster. -/
def opensText (number : Nat) (name : String) : Source :=
  "    subgraph cluster_".toList ++ ((toString number).toList ++ (['_'] ++ (name.toList ++ [' ', '\x7b'])))

theorem read_opensText {name : String} (number : Nat) (word : ' ' ∉ name.toList) :
    read (opensText number name) = opens number name := by
  have all : ∀ c ∈ name.toList, decide (c ≠ ' ') = true := by
    intro c member
    refine decide_eq_true ?_
    rintro rfl
    exact word member
  have first : ∀ rest, number? ((toString number).toList ++ (['_'] ++ rest)) =
      some (number, ['_'] ++ rest) := fun rest => number_digits number (by simp)
  have opens : opens? (opensText number name) = some (opens number name) := by
    unfold opens? opensText
    simp only [dropPrefix_append, Option.bind_eq_bind, Option.bind_some, first,
      List.takeWhile_append_of_pos all, List.dropWhile_append_of_pos all]
    simp
  simp [read, opens]

end Line

section Lines

variable {text rest : Source} {ls ms : List Line}

/-- A text is made up of whole lines that say the given things. -/
def Lined (text : Source) (ls : List Line) : Prop :=
  ∃ raw : List Source, text = raw.flatMap (· ++ ['\n']) ∧ (∀ l ∈ raw, '\n' ∉ l) ∧
    raw.map Line.read = ls

theorem Lined.nil : Lined [] [] := ⟨[], rfl, nofun, rfl⟩

theorem Lined.line {l : Source} {said : Line} (whole : '\n' ∉ l) (reads : Line.read l = said) :
    Lined (l ++ ['\n']) [said] :=
  ⟨[l], by simp, by simpa using whole, by simp [reads]⟩

theorem Lined.append (first : Lined text ls) (second : Lined rest ms) :
    Lined (text ++ rest) (ls ++ ms) := by
  obtain ⟨raw, rfl, whole, rfl⟩ := first
  obtain ⟨raw', rfl, whole', rfl⟩ := second
  refine ⟨raw ++ raw', by simp, ?_, by simp⟩
  intro l member
  exact (List.mem_append.1 member).elim (whole l) (whole' l)

theorem Lined.join {β : Type} {xs : List β} {f : β → String} {h : β → List Line}
    (each : ∀ x ∈ xs, Lined (f x).toList (h x)) :
    Lined (String.join (xs.map f)).toList (xs.flatMap h) := by
  induction xs with
  | nil => simpa using Lined.nil
  | cons x xs ih =>
      have others := ih fun y member => each y (List.mem_cons_of_mem x member)
      simpa using (each x List.mem_cons_self).append others

/-- Whole lines are told apart, with an empty text behind the last of them. -/
theorem splitOn_lines {raw : List Source} (whole : ∀ l ∈ raw, '\n' ∉ l) :
    (raw.flatMap (· ++ ['\n'])).splitOn '\n' = raw ++ [[]] := by
  induction raw with
  | nil => rfl
  | cons l raw ih =>
      have rest := ih fun l' member => whole l' (List.mem_cons_of_mem l member)
      rw [List.flatMap_cons, List.append_assoc, List.singleton_append,
        List.splitOn_append_cons_self_of_not_mem (whole l List.mem_cons_self), rest, List.cons_append]

theorem Lined.read (lined : Lined text ls) : (text.splitOn '\n').map Line.read = ls ++ [.other] := by
  obtain ⟨raw, rfl, whole, rfl⟩ := lined
  have empty : Line.read [] = .other := by decide
  rw [splitOn_lines whole, List.map_append, List.map_singleton, empty]

end Lines

theorem newline_not_mem_digits (n : Nat) : '\n' ∉ Nat.toDigits 10 n := by
  intro member
  have digit := Nat.isDigit_of_mem_toDigits (b := 10) (by decide) (by decide) member
  exact absurd digit (by decide)

theorem newline_not_mem_labelText {name : String} (whole : '\n' ∉ name.toList) :
    '\n' ∉ (labelText name).toList := by
  rw [labelText, String.toList_ofList, List.mem_flatMap]
  rintro ⟨c, member, escaped⟩
  by_cases backslash : c = '\\'
  · simp [backslash] at escaped
  · by_cases quote : c = '"'
    · simp [quote] at escaped
    · have same : '\n' = c := by simpa [backslash, quote] using escaped
      exact whole (same ▸ member)

theorem not_mem_identifierText (name : String) {c : Char} (other : c.isAlphanum = false)
    (line : c ≠ '_') : c ∉ (identifierText name).toList := by
  rw [identifierText, String.toList_ofList, List.mem_map]
  rintro ⟨d, -, same⟩
  split at same
  · rename_i word
    subst same
    simp [other, line] at word
  · exact line same.symm

theorem lined_edgeLine (red : Bool) (e : Edge) :
    Lined (edgeLine red e).toList [.edge e.caller.id e.callee.id red] := by
  have text : (edgeLine red e).toList = Line.edgeText e.caller.id e.callee.id red ++ ['\n'] := by
    unfold edgeLine Line.edgeText nodeText
    cases red <;> simp
  rw [text]
  refine .line ?_ (Line.read_edgeText _ _ red)
  unfold Line.edgeText
  cases red <;> simp [newline_not_mem_digits]

theorem lined_nodeLine {v : Vertex} (whole : '\n' ∉ v.name.toList) :
    Lined (nodeLine v).toList [.node v.id v.name] := by
  have text : (nodeLine v).toList = Line.nodeText v.id v.name ++ ['\n'] := by
    unfold nodeLine Line.nodeText nodeText attributeText
    simp
  rw [text]
  refine .line ?_ (Line.read_nodeText _ _)
  unfold Line.nodeText
  simp [newline_not_mem_digits, newline_not_mem_labelText whole]

namespace Cluster

/-- What the lines in a cluster say. -/
def inside (c : Cluster) : List Line :=
  c.titles.map .title ++ [.other, .other] ++ c.nodes.map fun n => .node n.1 n.2

/-- What the lines of a cluster say, with the empty one before them. -/
def lines (c : Cluster) : List Line := [.other, .opens c.number c.name] ++ c.inside ++ [.closes]

/-- The cluster of some functions of one contract. -/
def of (number : Nat) (fs : List Listed) : Cluster :=
  let contract := (fs.head?.map Listed.contract).getD ""
  ⟨number, identifierText contract, [contract], fs.map fun f => (f.function.id, f.function.name)⟩

end Cluster

theorem lined_clusterText (number : Nat) {first : Listed} {rest : List Listed}
    (contract : '\n' ∉ first.contract.toList)
    (names : ∀ f ∈ first :: rest, '\n' ∉ f.function.name.toList) :
    Lined (clusterText number (first :: rest)).toList (Cluster.of number (first :: rest)).lines := by
  have nodes : Lined (String.join ((first :: rest).map fun f => nodeLine f.function)).toList
      ((first :: rest).map fun f => .node f.function.id f.function.name) := by
    rw [List.map_eq_flatMap (f := fun f : Listed => Line.node f.function.id f.function.name)]
    exact .join fun f member => lined_nodeLine (names f member)
  have opens : Lined (Line.opensText number (identifierText first.contract) ++ ['\n'])
      [.opens number (identifierText first.contract)] := by
    have line : '\n' ∉ (identifierText first.contract).toList :=
      not_mem_identifierText _ (by decide) (by decide)
    have space : ' ' ∉ (identifierText first.contract).toList :=
      not_mem_identifierText _ (by decide) (by decide)
    refine .line ?_ (Line.read_opensText number space)
    unfold Line.opensText
    simp [newline_not_mem_digits, line]
  have title : Lined (Line.titleText first.contract ++ ['\n']) [.title first.contract] := by
    refine .line ?_ (Line.read_titleText _)
    unfold Line.titleText
    simp [newline_not_mem_labelText contract]
  have blank : Lined ([] ++ ['\n']) [.other] := .line (by simp) (by decide)
  have style : Lined ("        style=rounded;".toList ++ ['\n']) [.other] :=
    .line (by decide) (by decide +kernel)
  have color : Lined ("        color=gray50;".toList ++ ['\n']) [.other] :=
    .line (by decide) (by decide +kernel)
  have closes : Lined ("    \x7d".toList ++ ['\n']) [.closes] := .line (by decide) (by decide +kernel)
  have all := (((blank.append opens).append title).append (style.append color)).append
    (nodes.append closes)
  have text : (clusterText number (first :: rest)).toList = [] ++ ['\n'] ++
      (Line.opensText number (identifierText first.contract) ++ ['\n']) ++
      (Line.titleText first.contract ++ ['\n']) ++
      ("        style=rounded;".toList ++ ['\n'] ++ ("        color=gray50;".toList ++ ['\n'])) ++
      ((String.join ((first :: rest).map fun f => nodeLine f.function)).toList ++
        ("    \x7d".toList ++ ['\n'])) := by
    unfold clusterText Line.opensText Line.titleText attributeText
    simp
  rw [text]
  simpa [Cluster.lines, Cluster.inside, Cluster.of, Function.comp_def] using all

section Drawings

variable {ls ms : List Line} (c : Cluster)

/-- Lines of which none opens a cluster have no part in the clusters. -/
theorem clusters_append (none : ∀ l ∈ ls, ∀ number name, l ≠ .opens number name) :
    clusters (ls ++ ms) = clusters ms := by
  induction ls with
  | nil => rfl
  | cons l ls ih =>
      have others := ih fun l' member => none l' (List.mem_cons_of_mem l member)
      cases l with
      | opens number name => exact absurd rfl (none _ List.mem_cons_self number name)
      | _ => exact others

namespace Cluster

theorem titled_inside : c.inside.filterMap Line.titled? = c.titles := by
  have nodes : (c.nodes.map fun n => Line.node n.1 n.2).filterMap Line.titled? = [] := by
    simp [List.filterMap_map, Function.comp_def, Line.titled?]
  have titles : (c.titles.map Line.title).filterMap Line.titled? = c.titles := by
    simp [List.filterMap_map, Function.comp_def, Line.titled?]
  rw [inside, List.filterMap_append, List.filterMap_append, titles, nodes]
  simp [Line.titled?]

theorem declared_inside : c.inside.filterMap Line.declared? = c.nodes := by
  have nodes : (c.nodes.map fun n => Line.node n.1 n.2).filterMap Line.declared? = c.nodes := by
    simp [List.filterMap_map, Function.comp_def, Line.declared?]
  have titles : (c.titles.map Line.title).filterMap Line.declared? = [] := by
    simp [List.filterMap_map, Function.comp_def, Line.declared?]
  rw [inside, List.filterMap_append, List.filterMap_append, titles, nodes]
  rfl

theorem drawn_inside : c.inside.filterMap Line.drawn? = [] := by
  refine List.filterMap_eq_nil_iff.2 fun l member => ?_
  simp only [inside, List.mem_append, List.mem_map, List.mem_cons, List.not_mem_nil, or_false] at member
  rcases member with (⟨_, -, rfl⟩ | rfl | rfl) | ⟨_, -, rfl⟩ <;> rfl

theorem inside_ne : ∀ l ∈ c.inside, l ≠ .closes ∧ ∀ number name, l ≠ .opens number name := by
  intro l member
  simp only [inside, List.mem_append, List.mem_map, List.mem_cons, List.not_mem_nil, or_false] at member
  rcases member with (⟨_, -, rfl⟩ | rfl | rfl) | ⟨_, -, rfl⟩ <;> exact ⟨nofun, nofun⟩

/-- A cluster is read back from its lines. -/
theorem clusters_lines : clusters (c.lines ++ ms) = c :: clusters ms := by
  have closes : (c.inside ++ ([Line.closes] ++ ms)).takeWhile (· ≠ Line.closes) = c.inside := by
    rw [List.takeWhile_append_of_pos fun l member => by simpa using (c.inside_ne l member).1]
    simp
  have rest : clusters (c.inside ++ ([.closes] ++ ms)) = clusters ms := by
    rw [clusters_append fun l member => (c.inside_ne l member).2]
    rfl
  calc
    _ = clusters (.opens c.number c.name :: (c.inside ++ ([.closes] ++ ms))) := by
      rw [lines, List.append_assoc, List.append_assoc]
      rfl
    _ = c :: clusters ms := by
      rw [clusters, closes, c.titled_inside, c.declared_inside, rest]

theorem declared_lines : c.lines.filterMap Line.declared? = c.nodes := by
  rw [lines, List.filterMap_append, List.filterMap_append, c.declared_inside]
  exact List.append_nil _

theorem drawn_lines : c.lines.filterMap Line.drawn? = [] := by
  rw [lines, List.filterMap_append, List.filterMap_append, c.drawn_inside]
  rfl

theorem clusters_flatMap (cs : List Cluster) : clusters (cs.flatMap lines ++ ms) = cs ++ clusters ms := by
  induction cs with
  | nil => rfl
  | cons c cs ih => rw [List.flatMap_cons, List.append_assoc, c.clusters_lines, ih, List.cons_append]

end Cluster
end Drawings

section Runs

variable {f : Listed} {fs : List Listed}

theorem ne_nil_of_mem_runs {r : List Listed} (member : r ∈ runs fs) : r ≠ [] := by
  induction fs generalizing r with
  | nil => cases member
  | cons f fs ih =>
      rw [runs] at member
      split at member
      · rename_i g run rest split
        have later : ∀ r ∈ rest, r ≠ [] := fun r inside => ih (by simp [split, inside])
        split at member
        · rcases List.mem_cons.1 member with rfl | inside
          · simp
          · exact later r inside
        · rcases List.mem_cons.1 member with rfl | inside
          · simp
          · rcases List.mem_cons.1 inside with rfl | inside
            · simp
            · exact later r inside
      · rcases List.mem_cons.1 member with rfl | inside
        · simp
        · exact ih inside

theorem flatten_runs (fs : List Listed) : (runs fs).flatten = fs := by
  induction fs with
  | nil => rfl
  | cons f fs ih =>
      rw [runs]
      split
      · rename_i g run rest split
        rw [split] at ih
        split
        · rw [← ih]
          simp
        · rw [← ih]
          simp
      · simp [ih]

/-- The nodes in the clusters of some functions are those of the functions. -/
theorem nodes_clusters (fs : List Listed) :
    ((runs fs).zipIdx.map fun c => Cluster.of c.2 c.1).flatMap Cluster.nodes =
      fs.map fun f => (f.function.id, f.function.name) := by
  calc
    _ = ((runs fs).zipIdx.map Prod.fst).flatMap fun r => r.map fun f => (f.function.id, f.function.name) := by
      rw [List.flatMap_map, List.flatMap_map]
      rfl
    _ = ((runs fs).flatten).map fun f => (f.function.id, f.function.name) := by
      rw [List.zipIdx_map_fst, List.map_flatten, List.flatMap_def]
    _ = _ := by rw [flatten_runs]

end Runs

namespace Graph

variable (g : Graph)

/-- What the lines of the text say. -/
def graphvizLines : List Line :=
  List.replicate 4 .other ++
    (((runs g.functions).zipIdx.map fun c => Cluster.of c.2 c.1).flatMap Cluster.lines ++
    ((if g.edges.isEmpty then [] else [.other]) ++
    (g.edges.zipIdx.map (fun e => .edge e.1.caller.id e.1.callee.id (e.2 ∈ g.cycle.getD [])) ++
      [.other])))

/-- The lines in front of the clusters. -/
theorem lined_head :
    Lined ("digraph callgraph \x7b\n    rankdir=LR;\n    node [fontname=" ++ attributeText "Helvetica"
      ++ ", fontsize=10, shape=box, style=filled, fillcolor=lightblue];\n"
      ++ "    edge [fontname=" ++ attributeText "Helvetica" ++ ", fontsize=9];\n").toList
      (List.replicate 4 .other) := by
  refine ⟨["digraph callgraph \x7b".toList, "    rankdir=LR;".toList,
    ("    node [fontname=\"Helvetica\", fontsize=10, shape=box, style=filled, " ++
      "fillcolor=lightblue];").toList,
    "    edge [fontname=\"Helvetica\", fontsize=9];".toList], ?_, ?_, ?_⟩
  · simp [attributeText]
  · simp
  · decide +kernel

theorem lined_graphviz (whole : ∀ f ∈ g.functions,
    '\n' ∉ f.contract.toList ∧ '\n' ∉ f.function.name.toList) :
    Lined g.graphviz.toList g.graphvizLines := by
  have clusters : Lined (String.join ((runs g.functions).zipIdx.map fun c => clusterText c.2 c.1)).toList
      (((runs g.functions).zipIdx.map fun c => Cluster.of c.2 c.1).flatMap Cluster.lines) := by
    rw [List.flatMap_map]
    apply Lined.join
    rintro ⟨run, number⟩ member
    have inside : run ∈ runs g.functions := List.fst_mem_of_mem_zipIdx member
    obtain ⟨first, rest, rfl⟩ := List.exists_cons_of_ne_nil (ne_nil_of_mem_runs inside)
    have listed : ∀ f ∈ first :: rest, f ∈ g.functions := by
      intro f inRun
      rw [← flatten_runs g.functions]
      exact List.mem_flatten_of_mem inside inRun
    exact lined_clusterText number (whole first (listed first List.mem_cons_self)).1
      fun f inRun => (whole f (listed f inRun)).2
  have blank : Lined (if g.edges.isEmpty then "" else "\n").toList
      (if g.edges.isEmpty then [] else [.other]) := by
    split
    · exact .nil
    · exact .line (l := []) (by simp) (by decide)
  have edges : Lined (String.join (g.edges.zipIdx.map fun e => edgeLine (e.2 ∈ g.cycle.getD []) e.1)).toList
      (g.edges.zipIdx.map fun e =>
        .edge e.1.caller.id e.1.callee.id (e.2 ∈ g.cycle.getD [])) := by
    rw [List.map_eq_flatMap (f := fun e : Edge × Nat =>
      Line.edge e.1.caller.id e.1.callee.id (e.2 ∈ g.cycle.getD []))]
    exact .join fun e _ => lined_edgeLine _ e.1
  have last : Lined "\x7d\n".toList [.other] := ⟨[['\x7d']], by decide, by decide, by decide +kernel⟩
  have all := lined_head.append (clusters.append (blank.append (edges.append last)))
  unfold graphviz graphvizLines
  simpa only [String.toList_append, List.append_assoc] using all

theorem clusters_graphvizLines : clusters (g.graphvizLines ++ [.other]) =
    (runs g.functions).zipIdx.map fun c => Cluster.of c.2 c.1 := by
  have head : ∀ l ∈ List.replicate 4 Line.other, ∀ number name, l ≠ .opens number name := by simp
  have tail : ∀ l ∈ (if g.edges.isEmpty then [] else [.other]) ++
      (g.edges.zipIdx.map (fun e =>
        Line.edge e.1.caller.id e.1.callee.id (e.2 ∈ g.cycle.getD [])) ++ [.other]),
      ∀ number name, l ≠ .opens number name := by
    intro l member number name
    simp only [List.mem_append, List.mem_map, List.mem_singleton] at member
    rcases member with blank | ⟨e, -, rfl⟩ | rfl
    · split at blank
      · cases blank
      · obtain rfl := List.mem_singleton.1 blank
        nofun
    · nofun
    · nofun
  rw [graphvizLines, List.append_assoc, clusters_append head, List.append_assoc,
    Cluster.clusters_flatMap, clusters_append tail]
  exact List.append_nil _

/-- Of the lines only those of the clusters, and then those of the edges, say anything. -/
theorem filterMap_graphvizLines {β : Type} {said : Line → Option β} (other : said .other = none) :
    (g.graphvizLines ++ [Line.other]).filterMap said =
      ((runs g.functions).zipIdx.map fun c => Cluster.of c.2 c.1).flatMap
          (fun c => c.lines.filterMap said) ++
        g.edges.zipIdx.filterMap fun e =>
          said (.edge e.1.caller.id e.1.callee.id (e.2 ∈ g.cycle.getD [])) := by
  have blank : (if g.edges.isEmpty then [] else [Line.other]).filterMap said = [] := by
    split <;> simp [other]
  have head : (List.replicate 4 Line.other).filterMap said = [] := by simp [other]
  have last : [Line.other].filterMap said = [] := by simp [other]
  simp only [graphvizLines, List.filterMap_append, head, blank, last, List.nil_append, List.append_nil,
    List.filterMap_flatMap, List.filterMap_map, Function.comp_def]

theorem declared_graphvizLines : (g.graphvizLines ++ [Line.other]).filterMap Line.declared? =
    g.functions.map fun f => (f.function.id, f.function.name) := by
  rw [g.filterMap_graphvizLines rfl, funext Cluster.declared_lines, nodes_clusters]
  simp [Line.declared?]

theorem drawn_graphvizLines : (g.graphvizLines ++ [Line.other]).filterMap Line.drawn? =
    g.edges.zipIdx.map fun e => (e.1.ends, decide (e.2 ∈ g.cycle.getD [])) := by
  rw [g.filterMap_graphvizLines rfl, funext Cluster.drawn_lines]
  simp [Line.drawn?, Edge.ends]

/-- What is drawn, where no name has a line break in it. -/
theorem read_graphviz (whole : ∀ f ∈ g.functions,
    '\n' ∉ f.contract.toList ∧ '\n' ∉ f.function.name.toList) :
    Drawing.read g.graphviz =
      ⟨(runs g.functions).zipIdx.map fun c => Cluster.of c.2 c.1,
        g.functions.map fun f => (f.function.id, f.function.name),
        g.edges.zipIdx.map fun e => (e.1.ends, decide (e.2 ∈ g.cycle.getD []))⟩ := by
  rw [Drawing.read, (g.lined_graphviz whole).read, Drawing.ofLines, clusters_graphvizLines,
    declared_graphvizLines, drawn_graphvizLines]

end Graph
end SafeSubset.Calls
