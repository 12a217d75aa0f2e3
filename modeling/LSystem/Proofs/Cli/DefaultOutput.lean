import LSystem.Proofs.Cli.Command
import Mathlib.Data.List.TakeWhile

/-!
# The default output

Without an output path the program writes beside its input: the last name of the path takes the
extension of the format, and the way to it stays the same.  So the file that is written is the
input itself when its name has this extension already (`Parts.withExtension_eq_self_iff`), and
another one otherwise, however the tree of files is built (`FileTree.read_write_beside`).
-/

namespace LSystem.Text

variable {separator : Char} {text front rest row : List Char}

/-! ### Splitting -/

/-- Nothing is lost where a text is cut behind its last separator. -/
theorem splitLast_append (separator : Char) (text : List Char) :
    (splitLast separator text).1 ++ (splitLast separator text).2 = text := by
  rw [splitLast, ← List.reverse_append, List.takeWhile_append_dropWhile, List.reverse_reverse]

/-- Behind the last separator there is no other. -/
theorem not_mem_splitLast : separator ∉ (splitLast separator text).2 := by
  intro hmem
  have hkept := List.mem_takeWhile_imp (List.mem_reverse.1 hmem)
  simp at hkept

/-- What is before the last separator ends with it, or there is none. -/
theorem splitLast_fst (separator : Char) (text : List Char) :
    (splitLast separator text).1 = [] ∨
      ∃ before, (splitLast separator text).1 = before ++ [separator] := by
  unfold splitLast
  simp only
  cases hrest : text.reverse.dropWhile (· != separator) with
  | nil => exact .inl rfl
  | cons c rest =>
      have hhead := List.head?_dropWhile_not (· != separator) text.reverse
      rw [hrest] at hhead
      obtain rfl : c = separator := by simpa using hhead
      exact .inr ⟨rest.reverse, List.reverse_cons⟩

/-- There is one way to split a text at its last separator, whatever other separators stand before
it. -/
theorem splitLast_eq (before : List Char) (hrest : separator ∉ rest) :
    splitLast separator (before ++ separator :: rest) = (before ++ [separator], rest) := by
  have hall : ∀ c ∈ rest.reverse, (c != separator) = true := by
    intro c hc
    rw [bne_iff_ne]
    rintro rfl
    exact hrest (List.mem_reverse.1 hc)
  have hreverse : (before ++ separator :: rest).reverse =
      rest.reverse ++ separator :: before.reverse := by
    simp
  unfold splitLast
  simp only
  rw [hreverse, List.dropWhile_append_of_pos hall, List.takeWhile_append_of_pos hall]
  simp

/-- There is always a row, if only an empty one: a text with no separators is a single row. -/
theorem splitAt_ne_nil (separator : Char) (text : List Char) : splitAt separator text ≠ [] := by
  cases text with
  | nil => exact List.cons_ne_nil _ _
  | cons c rest =>
      rw [splitAt]
      by_cases hc : c = separator
      · rw [if_pos hc]
        exact List.cons_ne_nil _ _
      · rw [if_neg hc]
        split <;> exact List.cons_ne_nil _ _

/-- A text without the separator is a single row. The induction is on the row, whose characters
are all kept. -/
theorem splitAt_of_not_mem (h : separator ∉ row) : splitAt separator row = [row] := by
  induction row with
  | nil => rfl
  | cons c row ih =>
      rw [List.mem_cons, not_or] at h
      rw [splitAt, if_neg (Ne.symm h.1), ih h.2]

/-- Every separator ends a row, so the rows of a text are those before one of its separators and
those behind it. -/
theorem splitAt_append (front rest : List Char) : splitAt separator (front ++ separator :: rest) =
    splitAt separator front ++ splitAt separator rest := by
  induction front with
  | nil => simp [splitAt]
  | cons c front ih =>
      rw [List.cons_append, splitAt, splitAt, ih]
      by_cases hc : c = separator
      · rw [if_pos hc, if_pos hc, List.cons_append]
      · rw [if_neg hc, if_neg hc]
        cases hfront : splitAt separator front with
        | nil => exact absurd hfront (splitAt_ne_nil separator front)
        | cons first others => rfl

end LSystem.Text

namespace LSystem.Cli

open Text Syntax

/-! ### The last name of a path -/

/-- A path in two parts: a way that ends with a slash or is empty, and a name without slashes. -/
structure Parts (path : String) (way name : List Char) : Prop where
  eq_append : path.toList = way ++ name
  way : way = [] ∨ ∃ before, way = before ++ ['/']
  name : '/' ∉ name

/-- The names that a way goes through. -/
def namesOn (way : List Char) : List String :=
  ((splitAt '/' way).filter fun name => !name.isEmpty).map String.ofList

/-- Every path has its two parts, and they are found behind the last slash. -/
theorem parts_splitLast (path : String) :
    Parts path (splitLast '/' path.toList).1 (splitLast '/' path.toList).2 :=
  ⟨(splitLast_append '/' path.toList).symm, splitLast_fst '/' path.toList, not_mem_splitLast⟩

namespace Parts

variable {path : String} {way name : List Char}

/-- The names of a path are the names on its way, in their order, and then its last name, when it
has one. -/
theorem names_eq (h : Parts path way name) (hne : name ≠ []) :
    (Route.ofPath path).names = namesOn way ++ [String.ofList name] := by
  have hname : (!name.isEmpty) = true := by simpa using hne
  have hrows : ((splitAt '/' path.toList).filter fun row => !row.isEmpty) =
      ((splitAt '/' way).filter fun row => !row.isEmpty) ++ [name] := by
    rw [h.eq_append]
    rcases h.way with rfl | ⟨before, rfl⟩
    · rw [List.nil_append, splitAt_of_not_mem h.name, List.filter_singleton, hname]
      rfl
    · rw [List.append_assoc, List.singleton_append, splitAt_append, splitAt_append,
        splitAt_of_not_mem h.name, List.filter_append, List.filter_append, List.filter_singleton,
        hname]
      simp [splitAt]
  rw [Route.ofPath, hrows, List.map_append, namesOn]
  rfl

/-- Whether a path starts at the root is told by the way alone. The way is what stands before the
last name, and a path that starts at the root has a slash there at least. -/
theorem fromRoot_iff (h : Parts path way name) :
    (Route.ofPath path).fromRoot = true ↔ way.head? = some '/' := by
  have hroot : (Route.ofPath path).fromRoot = true ↔ ['/'] <+: path.toList :=
    String.startsWith_string_iff
  rw [hroot, h.eq_append]
  rcases h.way with rfl | ⟨before, rfl⟩
  · have hname := h.name
    cases name with
    | nil => simp
    | cons c rest =>
        simp only [List.nil_append, List.cons_prefix_cons, List.nil_prefix, and_true,
          List.head?_nil, reduceCtorEq, iff_false]
        rintro rfl
        exact hname (.head _)
  · cases before with
    | nil => simp
    | cons c rest => simp [eq_comm]

/-- A path that ends with its way asks for a directory. There is no name left that a file could
have. -/
theorem toDirectory_of_nil (h : Parts path way []) (hpath : path ≠ "") :
    (Route.ofPath path).toDirectory = true := by
  have hsuffix : (Route.ofPath path).toDirectory = true ↔ ['/'] <:+ path.toSlice.copy.toList :=
    String.Slice.endsWith_string_iff
  rw [hsuffix, String.copy_toSlice, h.eq_append, List.append_nil]
  rcases h.way with rfl | ⟨before, rfl⟩
  · exact absurd (String.toList_eq_nil_iff.1 h.eq_append) hpath
  · exact List.suffix_append before ['/']

end Parts

/-! ### Extensions -/

section Extensions

variable {name kept : List Char} {extension : String}

/-- Of the names of a path only one dot and two dots mean a directory by their form. -/
theorem isDots_ofList_iff :
    isDots (String.ofList name) = true ↔ name = ['.'] ∨ name = ['.', '.'] := by
  have hone : "." = String.ofList ['.'] := rfl
  have htwo : ".." = String.ofList ['.', '.'] := rfl
  rw [isDots, Bool.or_eq_true, beq_iff_eq, beq_iff_eq, hone, htwo, String.ofList_inj,
    String.ofList_inj]

/-- A name without an extension is kept whole, another up to the dot before the extension. -/
theorem untilExtension_cases (name : List Char) :
    (untilExtension name = name ∧
        ((splitLast '.' name).1 = [] ∨ (splitLast '.' name).1 = ['.'])) ∨
      ∃ stem, stem ≠ [] ∧ (splitLast '.' name).1 = stem ++ ['.'] ∧
        untilExtension name = stem ++ ['.'] := by
  unfold untilExtension
  rcases splitLast_fst '.' name with hfront | ⟨stem, hfront⟩ <;> rw [hfront]
  · exact .inl ⟨rfl, .inl rfl⟩
  · cases stem with
    | nil => exact .inl ⟨rfl, .inr rfl⟩
    | cons c stem =>
        refine .inr ⟨c :: stem, List.cons_ne_nil _ _, rfl, ?_⟩
        split <;> simp_all

/-- Nothing is added to a name when its extension is taken off. -/
theorem mem_of_mem_untilExtension {c : Char} (h : c ∈ untilExtension name) : c ∈ name := by
  rcases untilExtension_cases name with ⟨hsame, -⟩ | ⟨stem, -, hfront, hkept⟩
  · rwa [hsame] at h
  · rw [hkept, ← hfront] at h
    rw [← splitLast_append '.' name]
    exact List.mem_append_left _ h

/-- A name without its extension is not empty, because a dot in front of a name begins no
extension. -/
theorem untilExtension_ne_nil (hne : name ≠ []) : untilExtension name ≠ [] := by
  unfold untilExtension
  split
  · exact hne
  · exact hne
  · rename_i hnil hdot
    exact hnil

/-- What an extension adds to a name without one: nothing, the extension alone, or the extension
with a point before it. -/
theorem addExtension_cases (kept : List Char) (extension : String) :
    (addExtension kept extension).toList = kept ∨
      (addExtension kept extension).toList = kept ++ extension.toList ∨
      (addExtension kept extension).toList = kept ++ '.' :: extension.toList := by
  unfold addExtension
  split
  · exact .inl String.toList_ofList
  · split
    · refine .inr (.inl ?_)
      rw [String.toList_append, String.toList_ofList]
    · refine .inr (.inr ?_)
      rw [String.toList_append, String.toList_append, String.toList_ofList, List.append_assoc]
      rfl

/-- A name is still a single name with an extension that has no slash in it. -/
theorem slash_not_mem_addExtension (hkept : '/' ∉ kept) (hextension : '/' ∉ extension.toList) :
    '/' ∉ (addExtension kept extension).toList := by
  rcases addExtension_cases kept extension with heq | heq | heq <;> rw [heq] <;>
    simp [hkept, hextension]

theorem addExtension_ne_nil (hne : kept ≠ []) : (addExtension kept extension).toList ≠ [] := by
  rcases addExtension_cases kept extension with heq | heq | heq <;> rw [heq] <;> simp [hne]

/-- A name that is kept whole gets an extension that it had not. Its only point, if it has one, is
its first character, and the extension brings another. -/
theorem addExtension_ne_self (hname : name ≠ []) (hdots : isDots (String.ofList name) = false)
    (hfront : (splitLast '.' name).1 = [] ∨ (splitLast '.' name).1 = ['.']) :
    addExtension name extension ≠ String.ofList name := by
  have happend := splitLast_append '.' name
  have hrest : '.' ∉ (splitLast '.' name).2 := not_mem_splitLast
  have hne : (splitLast '.' name).2 ≠ [] := by
    intro hnil
    rw [hnil, List.append_nil] at happend
    rcases hfront with hfront | hfront <;> rw [hfront] at happend
    · exact hname happend.symm
    · rw [← happend] at hdots
      cases hdots
  have hlast : name.getLast? ≠ some '.' := by
    intro hlast
    rw [← happend, List.getLast?_append_of_ne_nil _ hne] at hlast
    exact hrest (List.mem_of_getLast? hlast)
  intro h
  have hlength := congrArg String.length h
  rw [addExtension, hdots, if_neg Bool.false_ne_true, if_neg hlast, String.length_append,
    String.length_append, show ".".length = 1 from rfl] at hlength
  omega

/-- The dot at the end of what is kept is the dot before the extension. -/
theorem addExtension_dot {stem : List Char} (hnil : stem ≠ []) (hdot : stem ≠ ['.']) :
    addExtension (stem ++ ['.']) extension = String.ofList (stem ++ '.' :: extension.toList) := by
  have hkept : isDots (String.ofList (stem ++ ['.'])) = false := by
    rw [Bool.eq_false_iff, ne_eq, isDots_ofList_iff]
    rintro (heq | heq)
    · exact hnil ((List.append_left_inj ['.']).1 heq)
    · exact hdot ((List.append_left_inj ['.']).1 heq)
  rw [addExtension, hkept, if_neg Bool.false_ne_true, if_pos List.getLast?_concat]
  apply String.toList_inj.1
  rw [String.toList_append, String.toList_ofList, String.toList_ofList, List.append_assoc,
    List.singleton_append]

/-- Replacing the extension of a name changes nothing where the extension is the same. What stands
before the point has to be a name of its own, so a point in front begins no extension. -/
theorem addExtension_untilExtension_eq_iff (hextension : '.' ∉ extension.toList)
    (hname : name ≠ []) (hdots : isDots (String.ofList name) = false) :
    addExtension (untilExtension name) extension = String.ofList name ↔
      ∃ stem, stem ≠ [] ∧ stem ≠ ['.'] ∧ name = stem ++ '.' :: extension.toList := by
  have hsplit {stem : List Char} (heq : name = stem ++ '.' :: extension.toList) :
      (splitLast '.' name).1 = stem ++ ['.'] := by
    rw [heq, splitLast_eq stem hextension]
  rcases untilExtension_cases name with ⟨hsame, hfront⟩ | ⟨stem, hnil, hfront, hkept⟩
  · rw [hsame]
    refine iff_of_false (addExtension_ne_self hname hdots hfront) ?_
    rintro ⟨stem, hnil, -, heq⟩
    rw [hsplit heq] at hfront
    rcases hfront with hfront | hfront
    · exact List.append_ne_nil_of_right_ne_nil stem (List.cons_ne_nil '.' []) hfront
    · exact hnil ((List.append_left_inj ['.']).1 hfront)
  · rw [hkept]
    -- what is kept of a name determines where its last dot is
    have hunique {other : List Char} (heq : name = other ++ '.' :: extension.toList) :
        stem = other :=
      (List.append_left_inj ['.']).1 (hfront.symm.trans (hsplit heq))
    by_cases hdot : stem = ['.']
    · refine iff_of_false ?_ ?_
      · intro h
        rw [hdot] at h
        rw [← h] at hdots
        cases hdots
      · rintro ⟨other, -, hne, heq⟩
        exact hne ((hunique heq).symm.trans hdot)
    · rw [addExtension_dot hnil hdot, String.ofList_inj]
      constructor
      · intro h
        exact ⟨stem, hnil, hdot, h.symm⟩
      · rintro ⟨other, -, -, heq⟩
        rw [heq, hunique heq]

/-- The last name of a path has the extension already, after something other than a dot alone. -/
def HasExtension (path extension : String) : Prop :=
  ∃ way stem, Parts path way (stem ++ '.' :: extension.toList) ∧ stem ≠ [] ∧ stem ≠ ['.']

end Extensions

section Paths

variable {path extension : String} {way name : List Char}

/-- A path has no other parts than those that are found at its last slash. -/
theorem Parts.splitLast_eq (h : Parts path way name) : splitLast '/' path.toList = (way, name) := by
  rw [h.eq_append]
  rcases h.way with rfl | ⟨before, rfl⟩
  · have hall : ∀ c ∈ name.reverse, (c != '/') = true := by
      intro c hc
      rw [bne_iff_ne]
      rintro rfl
      exact h.name (List.mem_reverse.1 hc)
    have hdrop := List.dropWhile_eq_nil_iff.2 hall
    have htake := List.takeWhile_eq_self_iff.2 hall
    rw [List.nil_append, splitLast]
    simp only [hdrop, htake, List.reverse_nil, List.reverse_reverse]
  · rw [List.append_assoc, List.singleton_append, Text.splitLast_eq before h.name]

/-- A path with another extension goes the same way, to its last name with the extension
replaced. -/
theorem Parts.withExtension (h : Parts path way name) (hextension : '/' ∉ extension.toList) :
    Parts (withExtension path extension) way
      (addExtension (untilExtension name) extension).toList := by
  refine ⟨?_, h.way, ?_⟩
  · rw [Cli.withExtension, h.splitLast_eq]
    simp only
    rw [String.toList_append, String.toList_ofList]
  · apply slash_not_mem_addExtension _ hextension
    exact fun hmem => h.name (mem_of_mem_untilExtension hmem)

/-- Only the name decides whether the path is another one. The way to the file is the same in
both, so the two paths are equal when the names are. -/
theorem Parts.withExtension_eq_iff (h : Parts path way name) (hextension : '/' ∉ extension.toList) :
    Cli.withExtension path extension = path ↔
      addExtension (untilExtension name) extension = String.ofList name := by
  have hparts := h.withExtension hextension
  rw [← String.toList_inj, hparts.eq_append, h.eq_append, List.append_cancel_left_eq,
    ← String.toList_inj, String.toList_ofList]

/-- The path with the extension replaced is the same exactly when it has the extension. -/
theorem Parts.withExtension_eq_self_iff (h : Parts path way name)
    (hslash : '/' ∉ extension.toList) (hdot : '.' ∉ extension.toList) (hname : name ≠ [])
    (hdots : isDots (String.ofList name) = false) :
    Cli.withExtension path extension = path ↔ HasExtension path extension := by
  rw [h.withExtension_eq_iff hslash, addExtension_untilExtension_eq_iff hdot hname hdots]
  constructor
  · rintro ⟨stem, hnil, hone, rfl⟩
    exact ⟨way, stem, h, hnil, hone⟩
  · rintro ⟨way', stem, hparts, hnil, hone⟩
    have hsame := h.splitLast_eq.symm.trans hparts.splitLast_eq
    exact ⟨stem, hnil, hone, congrArg Prod.snd hsame⟩

end Paths

/-! ### Reading and writing -/

namespace FileTree

variable {t after : FileTree} {path : String} {contents bytes : ByteArray} {route : Route}
  {directory names : List String} {name : String}

/-- A path that leads somewhere goes through directories to its last name. The last name is none
of the two that mean a directory. -/
theorem names_of_follow (h : t.follow route = .ok (some (directory, name))) :
    ∃ before, route.names = before ++ [name] ∧ isDots name = false ∧
      before.foldlM t.enter (if route.fromRoot then [] else t.here) = .ok directory := by
  unfold follow at h
  cases hnames : route.names.reverse with
  | nil =>
      rw [hnames] at h
      cases h
  | cons last before =>
      rw [hnames] at h
      obtain ⟨place, hway, h⟩ := bind_eq_ok h
      by_cases hdots : isDots last = true
      · rw [if_pos hdots] at h
        cases h
      · rw [if_neg hdots] at h
        cases h
        refine ⟨before.reverse, ?_, Bool.eq_false_iff.2 hdots, hway⟩
        rw [← List.reverse_reverse route.names, hnames, List.reverse_cons]

/-- What is there and no directory is a node of its own. -/
theorem find?_of_node? {node : Node} (h : t.node? names = some node) (hne : node ≠ .directory) :
    t.nodes.find? (pathOf names) = some node := by
  unfold node? at h
  cases hfind : t.nodes.find? (pathOf names) with
  | some found =>
      rw [hfind] at h
      exact h
  | none =>
      rw [hfind] at h
      simp only [Option.ite_none_right_eq_some, Option.some.injEq] at h
      exact absurd h.2.symm hne

/-- Where a path leads that can be read: to a node at the end of directories, which holds the
bytes that are read. -/
structure Holds (t : FileTree) (path : String) (directory : List String) (name : String)
    (node : Node) (bytes : ByteArray) : Prop where
  short : ¬ maxPathBytes < path.utf8ByteSize ∧ ¬ maxNameBytes < name.utf8ByteSize
  toFile : (Route.ofPath path).toDirectory = false
  follow : t.follow (.ofPath path) = .ok (some (directory, name))
  find : t.nodes.find? (pathOf (name :: directory)) = some node
  contents : node.contents = .ok bytes

/-- A path with a route is short enough, and the route is the one that its text gives. -/
theorem eq_of_routeOf (h : routeOf path = .ok route) :
    ¬ maxPathBytes < path.utf8ByteSize ∧ route = .ofPath path := by
  unfold routeOf at h
  split at h
  · cases h
  · cases h
    exact ⟨‹_›, rfl⟩

/-- What can be read stands somewhere: at the end of directories that are there, under a name that
is not too long, as a node that is no directory. -/
theorem exists_holds_of_read (h : t.read path = .ok bytes) :
    ∃ directory name node, t.Holds path directory name node bytes := by
  unfold read at h
  obtain ⟨route, hroute, h⟩ := bind_eq_ok h
  obtain ⟨hshort, rfl⟩ := eq_of_routeOf hroute
  obtain ⟨_ | ⟨directory, name⟩, hfollow, h⟩ := bind_eq_ok h
  · cases h
  obtain ⟨found, hlook, h⟩ := bind_eq_ok h
  obtain ⟨hname, rfl⟩ := look_eq_ok_iff.1 hlook
  cases hnode : t.node? (name :: directory) with
  | none =>
      rw [hnode] at h
      cases h
  | some node =>
      rw [hnode] at h
      cases hdirectory : (Route.ofPath path).toDirectory with
      | true =>
          rw [hdirectory] at h
          cases node <;> cases h
      | false =>
          rw [hdirectory] at h
          have hcontents : node ≠ .directory ∧ node.contents = .ok bytes := by
            cases node with
            | directory => cases h
            | file contents => exact ⟨nofun, h⟩
            | device device => exact ⟨nofun, h⟩
          exact ⟨directory, name, node, ⟨hshort, hname⟩, hdirectory, hfollow,
            find?_of_node? hnode hcontents.1, hcontents.2⟩

namespace Holds

variable {node : Node}

/-- What stands where a path leads is read from it: the path is followed to its directory, and the
node of its last name holds the contents. -/
theorem read (h : t.Holds path directory name node bytes) : t.read path = .ok bytes := by
  have hroute : routeOf path = .ok (.ofPath path) := if_neg h.short.1
  have hlook : t.look directory name = .ok (some node) := by
    rw [look_eq_ok_iff, node?, h.find]
    exact ⟨h.short.2, rfl⟩
  have hcontents := h.contents
  cases node with
  | directory => cases hcontents
  | file contents =>
      simp [FileTree.read, hroute, h.follow, hlook, h.toFile, hcontents, bind, Except.bind]
  | device device =>
      simp [FileTree.read, hroute, h.follow, hlook, h.toFile, hcontents, bind, Except.bind]

/-- What is put somewhere else changes nothing about it: all directories on the way are still
there, and so is the node at the end. -/
theorem put (h : t.Holds path directory name node bytes) (hnames : t.node? names ≠ some .directory)
    (hne : pathOf names ≠ pathOf (name :: directory)) :
    (t.put names contents).Holds path directory name node bytes where
  short := h.short
  toFile := h.toFile
  follow := follow_put hnames h.follow
  find := by rw [find?_put, if_neg hne, h.find]
  contents := h.contents

/-- A path that can be read ends with a name that does not lead to a directory. -/
theorem parts (h : t.Holds path directory name node bytes) :
    ∃ way, Parts path way name.toList ∧ name.toList ≠ [] ∧ isDots name = false ∧
      (namesOn way).foldlM t.enter (if (Route.ofPath path).fromRoot then [] else t.here) =
        .ok directory := by
  obtain ⟨before, hnames, hdots, hway⟩ := names_of_follow h.follow
  obtain ⟨way, last, hparts⟩ : ∃ way last, Parts path way last := ⟨_, _, parts_splitLast path⟩
  have hlast : last ≠ [] := by
    rintro rfl
    have hempty : path ≠ "" := by
      rintro rfl
      have hnone : ([] : List String) = before ++ [name] := hnames
      simp at hnone
    have htrue := hparts.toDirectory_of_nil hempty
    rw [h.toFile] at htrue
    cases htrue
  obtain ⟨rfl, hname⟩ := List.append_inj' (hnames.symm.trans (hparts.names_eq hlast)) rfl
  obtain rfl := List.singleton_inj.1 hname
  rw [String.toList_ofList]
  exact ⟨way, hparts, hlast, hdots, hway⟩

end Holds

/-- A name has one path in each directory. The directory is written the same in both paths, so the
rest of the two texts is the name. -/
theorem pathOf_cons_inj {other : String}
    (h : pathOf (name :: directory) = pathOf (other :: directory)) : name = other := by
  unfold pathOf at h
  rw [List.reverse_cons, List.reverse_cons] at h
  cases hdirectory : directory.reverse with
  | nil =>
      rw [hdirectory, List.nil_append, List.nil_append, String.intercalate_singleton,
        String.intercalate_singleton] at h
      exact h
  | cons first rest =>
      have hfirst := List.cons_ne_nil first rest
      rw [hdirectory, String.intercalate_append_of_ne_nil hfirst (List.cons_ne_nil _ _),
        String.intercalate_append_of_ne_nil hfirst (List.cons_ne_nil _ _),
        String.intercalate_singleton, String.intercalate_singleton] at h
      exact (String.append_right_inj _).1 h

/-- What is written beside a file leaves its contents. The target of the write has another path,
and a node that is put there leaves the one that was read. -/
theorem read_put_beside {extension : String} (hextension : '/' ∉ extension.toList)
    (hread : t.read path = .ok bytes) (hne : withExtension path extension ≠ path)
    (htarget : t.target (withExtension path extension) = .ok (.file names)) :
    (t.put names contents).read path = .ok bytes := by
  obtain ⟨directory, name, node, hholds⟩ := exists_holds_of_read hread
  obtain ⟨way, hparts, hname, -, hway⟩ := hholds.parts
  obtain ⟨route, directory', name', hroute, -, hfollow, -, rfl, hnode⟩ := exists_of_target htarget
  obtain ⟨-, rfl⟩ := eq_of_routeOf hroute
  have hparts' := hparts.withExtension hextension
  obtain ⟨before, hnames, -, hway'⟩ := names_of_follow hfollow
  have hnonempty : (addExtension (untilExtension name.toList) extension).toList ≠ [] :=
    addExtension_ne_nil (untilExtension_ne_nil hname)
  rw [hparts'.names_eq hnonempty, String.ofList_toList] at hnames
  obtain ⟨hbefore, hlast⟩ := List.append_inj' hnames rfl
  subst hbefore
  have hroot : (Route.ofPath (withExtension path extension)).fromRoot =
      (Route.ofPath path).fromRoot := by
    rw [Bool.eq_iff_iff, hparts'.fromRoot_iff, hparts.fromRoot_iff]
  rw [hroot, hway] at hway'
  obtain rfl := Except.ok.inj hway'
  apply Holds.read
  apply hholds.put hnode
  intro hpath
  apply hne
  rw [hparts.withExtension_eq_iff hextension, String.ofList_toList, List.singleton_inj.1 hlast]
  exact pathOf_cons_inj hpath

/-- What can be read and holds something is a file that can be written. A device holds nothing,
and a directory cannot be read. -/
theorem target_of_read (hread : t.read path = .ok bytes) (hne : bytes ≠ .empty) :
    ∃ names, t.target path = .ok (.file names) := by
  obtain ⟨directory, name, node, hholds⟩ := exists_holds_of_read hread
  have hroute : routeOf path = .ok (.ofPath path) := if_neg hholds.short.1
  have hlook : t.look directory name = .ok (some node) := by
    rw [look_eq_ok_iff, node?, hholds.find]
    exact ⟨hholds.short.2, rfl⟩
  have hcontents := hholds.contents
  cases node with
  | directory => cases hcontents
  | file contents =>
      refine ⟨name :: directory, ?_⟩
      simp [target, hroute, hholds.follow, hlook, hholds.toFile, bind, Except.bind, pure,
        Except.pure]
  | device device =>
      cases device with
      | absent => cases hcontents
      | null | full | display =>
          cases hcontents
          exact absurd rfl hne

/-- The output beside a file is the file itself exactly if it has the extension. -/
theorem withExtension_eq_iff_of_read {extension : String} (hslash : '/' ∉ extension.toList)
    (hdot : '.' ∉ extension.toList) (hread : t.read path = .ok bytes) :
    withExtension path extension = path ↔ HasExtension path extension := by
  obtain ⟨directory, name, node, hholds⟩ := exists_holds_of_read hread
  obtain ⟨way, hparts, hname, hdots, -⟩ := hholds.parts
  rw [← String.ofList_toList (s := name)] at hdots
  exact hparts.withExtension_eq_self_iff hslash hdot hname hdots

/-- A write to another output, be it a file or a device, leaves the file. -/
theorem read_write_beside {extension : String} (hslash : '/' ∉ extension.toList)
    (hread : t.read path = .ok bytes) (hne : withExtension path extension ≠ path)
    (hwrite : t.write (withExtension path extension) contents = .ok after) :
    after.read path = .ok bytes := by
  obtain ⟨target, htarget, hafter⟩ := bind_eq_ok hwrite
  cases target with
  | file names =>
      cases hafter
      exact read_put_beside hslash hread hne htarget
  | device device => cases device <;> cases hafter <;> exact hread

/-- A write to a file that holds something replaces what it holds. -/
theorem read_write_self (hread : t.read path = .ok bytes) (hne : bytes ≠ .empty)
    (hwrite : t.write path contents = .ok after) : after.read path = .ok contents := by
  obtain ⟨names, htarget⟩ := target_of_read hread hne
  exact (wrote_of_write hwrite).read names htarget

end FileTree

/-! ### The program -/

section Program

variable {args : Arguments} {fresh : UInt64} {t : FileTree} {bytes : ByteArray} {text : String}

/-- Nothing is drawn for an empty source, since it declares no axiom. This is why an input that
could be overwritten by its own output holds something. -/
theorem text_ne_of_empty : args.text fresh (.ok .empty) ≠ .ok text := by
  intro h
  obtain ⟨source, hsource, h⟩ := bind_eq_ok h
  obtain ⟨program, hprogram, h⟩ := bind_eq_ok h
  obtain ⟨spec, hspec, h⟩ := bind_eq_ok h
  rw [mapError_eq_ok_iff] at hsource
  rw [mapError_eq_ok_iff, mapError_eq_ok_iff] at hprogram hspec
  change textOf .empty = .ok source at hsource
  obtain rfl : "" = source := Option.some.inj (textOf_eq_ok_iff.1 hsource)
  have hnone : ((parseProgram "").toOption.bind fun program =>
      (Specification.ofProgram program).toOption).isSome = false := by
    decide +kernel
  rw [hprogram] at hnone
  simp [Except.toOption, hspec] at hnone

/-- A run that fails leaves all files, and one that succeeds writes the text of a drawing. -/
theorem execute_cases (args : Arguments) (filter : LogFilter) (fresh : UInt64) (t : FileTree) :
    ((execute args filter fresh t).status = .failure ∧ (execute args filter fresh t).tree = t) ∨
      (execute args filter fresh t).status = .success ∧
        ∃ text after, args.text fresh (t.read args.input) = .ok text ∧
          t.write args.outputPath text.toUTF8 = .ok after ∧
            (execute args filter fresh t).tree = after := by
  cases htext : args.text fresh (t.read args.input) with
  | error e => exact .inl (execute_of_ends (command_of_text_error htext))
  | ok text =>
      cases hwrite : t.write args.outputPath text.toUTF8 with
      | error e => exact .inl (execute_of_ends (command_of_write_error htext hwrite))
      | ok after =>
          obtain ⟨hstatus, htree⟩ := execute_of_ends (command_of_write htext hwrite)
          exact .inr ⟨hstatus, text, after, rfl, hwrite, htree⟩

/-- The extensions of the formats are neither paths of their own nor names with an extension of
their own. -/
theorem Format.extension_letters (format : Format) :
    '/' ∉ format.extension.toList ∧ '.' ∉ format.extension.toList := by
  cases format <;> decide

/-- **When the default output keeps its input.**  Whatever the tree of files is, a run with
arguments that name no output leaves all files as they are if it fails.  It leaves the contents of
the input that it has read, unless the name of the input has the extension of the format already;
then the output is the input, and a run that succeeds leaves the text of the drawing there. -/
theorem runProgram_default_output {words : List String} {filterText : Option String}
    {filter : LogFilter} (hrequest : readRequest words filterText = .ok (args, filter))
    (houtput : args.output = none) (fresh : UInt64) (t : FileTree) :
    let report := runProgram words filterText fresh t
    (report.status ≠ .success → report.tree = t) ∧
      ∀ bytes, t.read args.input = .ok bytes →
        (¬ HasExtension args.input args.format.extension →
          report.tree.read args.input = .ok bytes) ∧
        (HasExtension args.input args.format.extension → report.status = .success →
          ∃ text, args.text fresh (.ok bytes) = .ok text ∧
            report.tree.read args.input = .ok text.toUTF8) := by
  intro report
  have hreport : report = execute args filter fresh t := runProgram_eq_execute hrequest fresh t
  have hpath : args.outputPath = withExtension args.input args.format.extension := by
    rw [Arguments.outputPath, houtput, Option.getD_none]
  obtain ⟨hslash, hdot⟩ := args.format.extension_letters
  rw [hreport]
  rcases execute_cases args filter fresh t with
    ⟨hstatus, htree⟩ | ⟨hstatus, text, after, htext, hwrite, htree⟩
  · rw [hstatus, htree]
    exact ⟨fun _ => rfl, fun bytes hread => ⟨fun _ => hread, fun _ h => by cases h⟩⟩
  · refine ⟨fun hfail => absurd hstatus hfail, fun bytes hread => ?_⟩
    rw [htree]
    rw [hpath] at hwrite
    rw [hread] at htext
    rw [← FileTree.withExtension_eq_iff_of_read hslash hdot hread]
    constructor
    · intro hne
      exact FileTree.read_write_beside hslash hread hne hwrite
    · intro hsame _
      rw [hsame] at hwrite
      have hne : bytes ≠ .empty := by
        rintro rfl
        exact text_ne_of_empty htext
      exact ⟨text, htext, FileTree.read_write_self hread hne hwrite⟩

/-- A directory with the source of `sketch` in it, under the name that its drawing would have. -/
def sketchAsSvg : FileTree := .ofFiles [("in.svg", "axiom F; transform F translate 1, 2;".toUTF8)]

/-- A source with another extension than the drawing is there after the run; a source under the
name of the drawing is gone, and what is read in its place is a text. -/
theorem runProgram_sketch_kept :
    (runProgram ["in.l", "--seed", "7"] none 0 sketch).tree.read "in.l" =
        .ok "axiom F; transform F translate 1, 2;".toUTF8 ∧
      ∃ text : String, (runProgram ["in.svg"] none 0 sketchAsSvg).tree.read "in.svg" =
        .ok text.toUTF8 := by
  let args : Arguments := ⟨"in.l", none, .svg, some 7, none, none, false⟩
  let args' : Arguments := ⟨"in.svg", none, .svg, none, none, none, false⟩
  have hread : sketch.read "in.l" = .ok "axiom F; transform F translate 1, 2;".toUTF8 := by
    decide +kernel
  have hread' : sketchAsSvg.read "in.svg" = .ok "axiom F; transform F translate 1, 2;".toUTF8 := by
    decide +kernel
  have hother : ¬ HasExtension "in.l" "svg" := by
    rintro ⟨way, stem, hparts, -⟩
    have hsuffix : ".svg".toList <:+ "in.l".toList := by
      rw [hparts.eq_append, ← List.append_assoc]
      exact List.suffix_append _ _
    exact absurd hsuffix (by decide +kernel)
  have hsame : HasExtension "in.svg" "svg" :=
    ⟨[], "in".toList, ⟨rfl, .inl rfl, by decide⟩, by decide, by decide⟩
  have hsuccess : (runProgram ["in.svg"] none 0 sketchAsSvg).status = .success := by
    decide +kernel
  have hrequest : readRequest ["in.l", "--seed", "7"] none = .ok (args, .standard) := rfl
  have hrequest' : readRequest ["in.svg"] none = .ok (args', .standard) := rfl
  have hkept := runProgram_default_output hrequest rfl 0 sketch
  have hreplaced := runProgram_default_output hrequest' rfl 0 sketchAsSvg
  obtain ⟨text, -, htext⟩ := (hreplaced.2 _ hread').2 hsame hsuccess
  exact ⟨(hkept.2 _ hread).1 hother, text, htext⟩

/-- Without an output path, a source that is named like a drawing is replaced by its drawing. -/
theorem runProgram_replaces_input : ¬ ∀ (words : List String) (filterText : Option String)
    (args : Arguments) (filter : LogFilter) (fresh : UInt64) (t : FileTree) (bytes : ByteArray),
    readRequest words filterText = .ok (args, filter) → args.output = none →
      t.read args.input = .ok bytes →
        (runProgram words filterText fresh t).tree.read args.input = .ok bytes := by
  intro h
  have hread : sketchAsSvg.read "in.svg" = .ok "axiom F; transform F translate 1, 2;".toUTF8 := by
    decide +kernel
  have hkept := h ["in.svg", "--seed", "7"] none ⟨"in.svg", none, .svg, some 7, none, none, false⟩
    .standard 0 sketchAsSvg _ rfl rfl hread
  have hreplaced : (runProgram ["in.svg", "--seed", "7"] none 0 sketchAsSvg).tree.read "in.svg" ≠
      .ok "axiom F; transform F translate 1, 2;".toUTF8 := by
    decide +kernel
  exact hreplaced hkept

end Program

end LSystem.Cli
