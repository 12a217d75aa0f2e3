import LSystem.Cli.FileTree
import LSystem.Except

/-!
# Writing to a tree of files

What is written to a path is read from it afterwards (`read_put`), and nothing
else in the tree is changed.  The paths of directories lead where they led
before, since what takes the place of a file is no directory.
-/

namespace LSystem.Cli

variable {t after : FileTree} {names directory : List String} {path : String}
  {contents : ByteArray}

/-- An entry that was there has its name still. Setting the value of a name keeps all names,
whether it was bound before or not. -/
theorem any_insertIn {α : Type} (p : String → Bool) {name : String} {value : α}
    {entries : List (String × α)} (h : entries.any (fun entry => p entry.1) = true) :
    (Bindings.insertIn name value entries).any (fun entry => p entry.1) = true := by
  induction entries with
  | nil => cases h
  | cons entry rest ih =>
    obtain ⟨key, old⟩ := entry
    rw [List.any_cons, Bool.or_eq_true] at h
    by_cases hkey : key = name
    · subst hkey
      simpa [Bindings.insertIn] using h
    · rw [Bindings.insertIn, if_neg hkey, List.any_cons, Bool.or_eq_true]
      exact h.imp id ih

namespace FileTree

/-- Only the node at the names is another one. -/
theorem find?_put (key : String) :
    (t.put names contents).nodes.find? key =
      if pathOf names = key then some (.file contents) else t.nodes.find? key :=
  Bindings.find?_insert _ _ _ _

/-- A file that takes the place of no directory leaves all directories. The node of a directory is
one of those that are not touched. -/
theorem node?_put_of_directory (hnames : t.node? names ≠ some .directory)
    (hdirectory : t.node? directory = some .directory) :
    (t.put names contents).node? directory = some .directory := by
  have hne : pathOf names ≠ pathOf directory := by
    intro heq
    apply hnames
    rw [node?, heq]
    exact hdirectory
  rw [node?, find?_put, if_neg hne]
  rw [node?] at hdirectory
  cases hfind : t.nodes.find? (pathOf directory) with
  | some node => rwa [hfind] at hdirectory
  | none =>
    rw [hfind] at hdirectory
    simp only [ite_eq_left_iff, Bool.not_eq_true, reduceCtorEq, imp_false, Bool.not_eq_false]
      at hdirectory ⊢
    exact any_insertIn (·.startsWith (pathOf directory ++ "/")) hdirectory

/-- What has a name in a directory is a directory still. The node that is put is a file, and it
takes the place of no directory. -/
theorem look_put (hnames : t.node? names ≠ some .directory) {name : String}
    (h : t.look directory name = .ok (some .directory)) :
    (t.put names contents).look directory name = .ok (some .directory) := by
  unfold look at h ⊢
  by_cases hlong : maxNameBytes < name.utf8ByteSize
  · rw [if_pos hlong] at h
    cases h
  · rw [if_neg hlong] at h ⊢
    rw [node?_put_of_directory hnames (Except.ok.inj h)]

/-- The ways through directories are the same. A way that leads through directories only cannot
notice that a file has been put, and so it leads where it did. -/
theorem enter_put (hnames : t.node? names ≠ some .directory) {name : String}
    {further : List String} (h : t.enter directory name = .ok further) :
    (t.put names contents).enter directory name = .ok further := by
  unfold enter at h ⊢
  by_cases hhere : (name == ".") = true
  · rwa [if_pos hhere] at h ⊢
  by_cases habove : (name == "..") = true
  · rwa [if_neg hhere, if_pos habove] at h ⊢
  rw [if_neg hhere, if_neg habove] at h ⊢
  obtain ⟨found, hlook, h⟩ := bind_eq_ok h
  rcases found with _ | (_ | _ | _)
  · cases h
  · rw [look_put hnames hlook]
    exact h
  all_goals cases h

/-- A way through directories can still be gone, name by name, and ends in the same directory. -/
theorem foldlM_enter_put (hnames : t.node? names ≠ some .directory) {way : List String}
    {further : List String} (h : way.foldlM t.enter directory = .ok further) :
    way.foldlM (t.put names contents).enter directory = .ok further := by
  induction way generalizing directory with
  | nil => exact h
  | cons name way ih =>
    rw [List.foldlM_cons] at h ⊢
    obtain ⟨next, hnext, h⟩ := bind_eq_ok h
    rw [enter_put hnames hnext]
    exact ih h

/-- Paths lead where they led before a file was put where no directory is: the directories on
their way are entered as before, and the last name is not looked up. -/
theorem follow_put (hnames : t.node? names ≠ some .directory) {route : Route}
    {place : Option (List String × String)} (h : t.follow route = .ok place) :
    (t.put names contents).follow route = .ok place := by
  unfold follow at h ⊢
  cases hroute : route.names.reverse with
  | nil => rwa [hroute] at h
  | cons last before =>
    rw [hroute] at h
    obtain ⟨further, hway, h⟩ := bind_eq_ok h
    have hway' : before.reverse.foldlM (t.put names contents).enter
        (if route.fromRoot then [] else t.here) = .ok further := foldlM_enter_put hnames hway
    dsimp only
    rw [show (t.put names contents).here = t.here from rfl, hway']
    exact h

/-- A name that is short enough can be looked for in every directory, and what is found is the
node that stands there, if there is one. -/
theorem look_eq_ok_iff {name : String} {found : Option Node} :
    t.look directory name = .ok found ↔
      ¬ maxNameBytes < name.utf8ByteSize ∧ t.node? (name :: directory) = found := by
  unfold look
  by_cases hlong : maxNameBytes < name.utf8ByteSize
  · simp [hlong]
  · rw [if_neg hlong, Except.ok.injEq, and_iff_right hlong]

/-- A path that means a file ends with its name, asks for no directory and finds none. -/
theorem exists_of_target (h : t.target path = .ok (.file names)) :
    ∃ route directory name, routeOf path = .ok route ∧ route.toDirectory = false ∧
      t.follow route = .ok (some (directory, name)) ∧ ¬ maxNameBytes < name.utf8ByteSize ∧
      names = name :: directory ∧ t.node? names ≠ some .directory := by
  unfold target at h
  obtain ⟨route, hroute, h⟩ := bind_eq_ok h
  obtain ⟨_ | ⟨directory, name⟩, hfollow, h⟩ := bind_eq_ok h
  · cases h
  dsimp only at h
  cases hdirectory : route.toDirectory with
  | true =>
    rw [if_pos hdirectory] at h
    cases h
  | false =>
    rw [hdirectory, if_neg Bool.false_ne_true] at h
    obtain ⟨found, hlook, h⟩ := bind_eq_ok h
    obtain ⟨hshort, rfl⟩ := look_eq_ok_iff.1 hlook
    refine ⟨route, directory, name, hroute, hdirectory, hfollow, hshort, ?_⟩
    rcases hnode : t.node? (name :: directory) with _ | (_ | _ | _) <;> rw [hnode] at h <;>
      cases h <;> exact ⟨rfl, by simp [hnode]⟩

/-- What was written to the file that a path means is read from there. -/
theorem read_put (h : t.target path = .ok (.file names)) :
    (t.put names contents).read path = .ok contents := by
  obtain ⟨route, directory, name, hroute, hdirectory, hfollow, hname, rfl, hnode⟩ :=
    exists_of_target h
  have hlook : (t.put (name :: directory) contents).look directory name =
      .ok (some (.file contents)) :=
    look_eq_ok_iff.2 ⟨hname, node?_put _ _ _⟩
  have hfollow' : (t.put (name :: directory) contents).follow route =
      .ok (some (directory, name)) := follow_put hnode hfollow
  simp [read, hroute, hfollow', hlook, hdirectory, Node.contents, bind, Except.bind]

/-- A text has been written to a path and nothing else is changed.  Where the path means a
device, no file is changed at all. -/
structure Wrote (t : FileTree) (path : String) (contents : ByteArray) (after : FileTree) :
    Prop where
  here : after.here = t.here
  read : ∀ names, t.target path = .ok (.file names) → after.read path = .ok contents
  others : ∀ key, after.nodes.find? key ≠ t.nodes.find? key →
    ∃ names, t.target path = .ok (.file names) ∧ key = pathOf names

/-- A file is written to where its path leads.  It is read from the same path afterwards, and only
its own node is another one. -/
theorem wrote_put (h : t.target path = .ok (.file names)) :
    t.Wrote path contents (t.put names contents) where
  here := rfl
  read other hother := by
    obtain rfl : names = other := by
      rw [h] at hother
      cases hother
      rfl
    exact read_put h
  others key hkey := by
    refine ⟨names, h, ?_⟩
    by_cases heq : pathOf names = key
    · exact heq.symm
    · rw [find?_put, if_neg heq] at hkey
      exact absurd rfl hkey

/-- What is written to a device changes no file, and so the tree stays as it is. -/
theorem wrote_device {device : Device} (h : t.target path = .ok (.device device)) :
    t.Wrote path contents t where
  here := rfl
  read names hnames := by
    rw [h] at hnames
    cases hnames
  others _ hkey := absurd rfl hkey

/-- Writing changes nothing but what it is to write, be it a file, whose contents are then the
text, or a device, which leaves the tree as it is. -/
theorem wrote_of_write (h : t.write path contents = .ok after) :
    t.Wrote path contents after := by
  obtain ⟨target, htarget, h⟩ := bind_eq_ok h
  cases target with
  | file names =>
    cases h
    exact wrote_put htarget
  | device device =>
    cases device <;> cases h <;> exact wrote_device htarget

end FileTree

end LSystem.Cli
