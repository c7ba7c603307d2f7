import Mathlib.Data.List.DropRight
import IntLang.CommandLine.FileTree
import IntLang.Proofs.Stateful
/-!
What reading and writing at a path do to a tree. A path leads to one location; reading gives what
stands there, and writing changes nothing but what stands there.
-/
namespace IntLang.CommandLine

namespace Node

/-- What stands at a place after writing there, where nothing or a node stood before. -/
def stored : Option Node → ByteArray → Except FileError Node
  | none, content => .ok (file content)
  | some node, content => node.store content

variable {before : Option Node} {node : Node} {bytes : ByteArray}

theorem store_ne_directory {old : Node} (h : old.store bytes = .ok node) :
    old ≠ directory ∧ node ≠ directory := by
  constructor
  · rintro rfl
    cases h
  · rintro rfl
    cases old with
    | directory | file => cases h
    | device kind =>
        cases kind with
        | full =>
            rw [store] at h
            split at h <;> cases h
        | _ => cases h

/-- There is no directory before writing, and none after. -/
theorem stored_ne_directory (h : stored before bytes = .ok node) :
    before ≠ some directory ∧ node ≠ directory := by
  cases before with
  | none =>
      cases h
      exact ⟨nofun, nofun⟩
  | some old =>
      obtain ⟨old_ne, node_ne⟩ := store_ne_directory h
      exact ⟨fun same => old_ne (Option.some.inj same), node_ne⟩

/-- Where no device stands, writing leaves a file with what was written. -/
theorem stored_eq_file (h : stored before bytes = .ok node)
    (plain : ∀ kind, before ≠ some (.device kind)) : node = .file bytes := by
  match before with
  | none | some (.file old) =>
      cases h
      rfl
  | some .directory => cases h
  | some (.device kind) => exact absurd rfl (plain kind)

end Node

namespace FileTree

variable {t : FileTree} {path : String} {bytes : ByteArray}

/-- The path leads to the location, through directories that are there. Nothing need stand at the
location itself. -/
inductive Leads (t : FileTree) (path : String) : Location → Prop
  | intro {start front directory name} : t.route path = .ok (start, front ++ [name]) →
      t.walk start front = .ok directory → isDots name = false →
      name.utf8ByteSize ≤ nameLimit → Leads t path (directory ++ [name])

theorem Leads.ne_nil {l : Location} (h : t.Leads path l) : l ≠ [] := by
  cases h
  exact List.concat_ne_nil _ _

theorem Leads.unique {l l' : Location} (h : t.Leads path l) (h' : t.Leads path l') : l = l' := by
  obtain @⟨start, front, directory, name, routed, walked, -, -⟩ := h
  obtain @⟨start', front', directory', name', routed', walked', -, -⟩ := h'
  obtain ⟨rfl, names⟩ := Prod.mk.inj (Except.ok.inj (routed.symm.trans routed'))
  obtain ⟨rfl, rfl⟩ := List.append_singleton_inj.mp names
  cases walked.symm.trans walked'
  rfl

/-- Reading gives what stands where the path leads. -/
theorem Leads.content {l : Location} (h : t.Leads path l) :
    t.content path = (t.node? l).elim (.error .notFound) Node.content := by
  obtain @⟨start, front, directory, name, routed, walked, plain, short⟩ := h
  rw [FileTree.content, routed]
  simp only [bind, Except.bind, List.dropLast_concat, walked, List.getLast?_concat,
    Option.getD_some, plain, Bool.false_eq_true, if_false, child?, if_neg (Nat.not_lt.mpr short)]
  cases t.node? (directory ++ [name]) <;> rfl

/-- What is found under a name that is not too long. -/
theorem child?_eq_ok {directory : Location} {name : String} {found : Option Node} :
    t.child? directory name = .ok found ↔
      name.utf8ByteSize ≤ nameLimit ∧ t.node? (directory ++ [name]) = found := by
  rw [child?]
  by_cases long : name.utf8ByteSize > nameLimit
  · rw [if_pos long]
    exact ⟨nofun, fun ⟨short, _⟩ => absurd long (Nat.not_lt.mpr short)⟩
  · rw [if_neg long, Except.ok.injEq]
    exact (and_iff_right (Nat.le_of_not_lt long)).symm

/-- Names that end in one that stands for no directory are some names and that one. -/
theorem exists_concat_of_plain {names : List String}
    (plain : isDots (names.getLast?.getD "") = false) :
    ∃ front name, names = front ++ [name] ∧ isDots name = false := by
  rcases List.eq_nil_or_concat' names with rfl | ⟨front, name, rfl⟩
  · cases plain
  · rw [List.getLast?_concat, Option.getD_some] at plain
    exact ⟨front, name, rfl, plain⟩

/-- Writing puts a node where the path leads. -/
theorem store_cases {t' : FileTree} (h : t.store path bytes = .ok t') :
    ∃ l node, t.Leads path l ∧ Node.stored (t.node? l) bytes = .ok node ∧ t' = t.put l node := by
  obtain ⟨⟨start, names⟩, routed, h⟩ := exists_of_bind h
  dsimp only at h
  have front : (names.reverse.dropWhile (· = "")).reverse <+: names :=
    List.rdropWhile_prefix _ names
  generalize (names.reverse.dropWhile (· = "")).reverse = kept at h front
  obtain ⟨directory, walked, h⟩ := exists_of_bind h
  by_cases refused : (isDots (kept.getLast?.getD "") || decide (kept.length < names.length)) = true
  · rw [if_pos refused] at h
    cases h
  rw [if_neg refused] at h
  obtain ⟨plain, whole⟩ : isDots (kept.getLast?.getD "") = false ∧
      ¬kept.length < names.length := by simpa using refused
  -- A slash behind the last name is refused, so no name has been dropped.
  cases front.eq_of_length_le (Nat.le_of_not_lt whole)
  obtain ⟨front, name, rfl, named⟩ := exists_concat_of_plain plain
  rw [List.dropLast_concat] at walked
  rw [List.getLast?_concat, Option.getD_some] at h
  obtain ⟨before, entry, h⟩ := exists_of_bind h
  obtain ⟨short, found⟩ := child?_eq_ok.mp entry
  have leads : t.Leads path (directory ++ [name]) := .intro routed walked named short
  cases before with
  | none =>
      cases h
      exact ⟨_, _, leads, found ▸ rfl, rfl⟩
  | some old =>
      obtain ⟨node, stored, h⟩ := exists_of_bind h
      cases h
      exact ⟨_, node, leads, found ▸ stored, rfl⟩

section Put

variable {l : Location}

theorem ne_nil_of_node? (before : t.node? l ≠ some .directory) : l ≠ [] := by
  rintro rfl
  exact before rfl

/-- What a path leads through stays, if no directory stood where a node is put. -/
theorem enter_put (before : t.node? l ≠ some .directory) (node : Node) {here d : Location}
    {name : String} (h : t.enter here name = .ok d) : (t.put l node).enter here name = .ok d := by
  rw [enter] at h ⊢
  split_ifs at h ⊢ with blank dots
  · exact h
  · exact h
  · obtain ⟨stands, entry, h⟩ := exists_of_bind h
    obtain ⟨short, found⟩ := child?_eq_ok.mp entry
    match stands with
    | none | some (.file _) | some (.device _) => cases h
    | some .directory =>
        have other : here ++ [name] ≠ l := fun same => before (same ▸ found)
        have stays : (t.put l node).node? (here ++ [name]) = some .directory := by
          rw [node?_put (ne_nil_of_node? before), if_neg other, found]
        rw [child?_eq_ok.mpr ⟨short, stays⟩]
        exact h

theorem walk_put (before : t.node? l ≠ some .directory) (node : Node) {start d : Location}
    {names : List String} (h : t.walk start names = .ok d) :
    (t.put l node).walk start names = .ok d := by
  induction names generalizing start with
  | nil => exact h
  | cons name names ih =>
      rw [walk, List.foldlM_cons] at h ⊢
      cases entered : t.enter start name with
      | error e =>
          rw [entered] at h
          cases h
      | ok next =>
          rw [entered] at h
          rw [enter_put before node entered]
          exact ih h

theorem Leads.put {l' : Location} (h : t.Leads path l') (before : t.node? l ≠ some .directory)
    (node : Node) : (t.put l node).Leads path l' := by
  obtain ⟨routed, walked, plain, short⟩ := h
  exact .intro routed (walk_put before node walked) plain short

end Put

/-- What a successful writing of a text at a path has done. -/
structure Wrote (t : FileTree) (path text : String) (l : Location) (t' : FileTree) : Prop where
  leads : t.Leads path l
  workingDirectory : t'.workingDirectory = t.workingDirectory
  /-- Whatever stands at other locations stays. -/
  elsewhere : ∀ l', l' ≠ l → t'.node? l' = t.node? l'
  /-- Where a file or nothing was, there is a file with the text and nothing else. -/
  file : (∀ kind, t.node? l ≠ some (.device kind)) →
    t'.node? l = some (.file text.toUTF8) ∧ t'.read path = .ok text
  /-- A device takes the text in its own way. -/
  device : ∀ kind, t.node? l = some (.device kind) →
    ∃ node, (Node.device kind).store text.toUTF8 = .ok node ∧ t'.node? l = some node

theorem fromUTF8?_toUTF8 (text : String) : String.fromUTF8? text.toUTF8 = some text := by
  exact dif_pos text.isValidUTF8

/-- A text is read from the file that holds it. -/
theorem Leads.read {l : Location} {text : String} (h : t.Leads path l)
    (found : t.node? l = some (.file text.toUTF8)) : t.read path = .ok text := by
  have bytes : t.content path = .ok text.toUTF8 := by rw [h.content, found]; rfl
  rw [FileTree.read, bytes]
  simp only [bind, Except.bind, fromUTF8?_toUTF8]
  rfl

theorem wrote_of_write {text : String} {t' : FileTree} (h : t.write path text = .ok t') :
    ∃ l, t.Wrote path text l t' := by
  obtain ⟨l, node, leads, stored, rfl⟩ := store_cases h
  have before := (Node.stored_ne_directory stored).1
  have here : (t.put l node).node? l = some node := by
    rw [node?_put leads.ne_nil, if_pos rfl]
  refine ⟨l, leads, rfl, ?_, ?_, ?_⟩
  · intro l' other
    rw [node?_put leads.ne_nil, if_neg other]
  · intro plain
    cases Node.stored_eq_file stored plain
    exact ⟨here, (leads.put before _).read here⟩
  · intro kind found
    rw [found] at stored
    exact ⟨node, stored, here⟩

end FileTree

end IntLang.CommandLine
