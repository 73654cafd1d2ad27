import FuzzySearch.Files.SnapshotFile
import FuzzySearch.Proofs.Calls
import Mathlib.Data.List.Basic
import Mathlib.Tactic.SplitIfs

/-!
# Files in a folder

What a change of a folder does to the texts of its files: writing puts one text in place and leaves
the others alone (`Folder.text?_write`), making folders leaves all of them alone
(`Folder.text?_makeFolders`), and erasing a file takes away its text only (`Folder.text?_erase`).  So a
text that is put in the place of a file is found there, and everything else is found as before, the
place of the temporary file excepted (`SnapshotFile.text?_replace`).
-/

namespace FuzzySearch

theorem lookup?_filter_of_ne {β : Type} {name other : String} (h : other ≠ name)
    (entries : List (String × β)) :
    lookup? other (entries.filter (·.1 != name)) = lookup? other entries := by
  unfold lookup?
  rw [List.find?_filter]
  refine congrArg (fun test => (entries.find? test).map (·.2)) (funext fun entry => ?_)
  by_cases hentry : entry.1 = other
  · simp [hentry, h]
  · simp [hentry]

theorem lookup?_filter_self {β : Type} (name : String) (entries : List (String × β)) :
    lookup? name (entries.filter (·.1 != name)) = none := by
  unfold lookup?
  rw [List.find?_filter, Option.map_eq_none_iff, List.find?_eq_none]
  intro entry _
  simp

namespace Folder

variable {folder after : Folder}

/-- The text at a place behind what stands under its first name. -/
def textBehind : Option FolderEntry → List String → Option String
  | some (.folder inner), rest => text? inner rest
  | some (.file text), [] => some text
  | _, _ => none

theorem text?_cons (folder : Folder) (name : String) (rest : List String) :
    folder.text? (name :: rest) = textBehind (lookup? name folder) rest := by
  unfold text?
  rw [find?]
  cases lookup? name folder with
  | none => rfl
  | some entry =>
    cases entry with
    | folder inner => rfl
    | file text => cases rest <;> rfl

theorem text?_empty (place : List String) : text? [] place = none := by
  cases place <;> rfl

theorem text?_insertEntry_self (name : String) (entry : FolderEntry) (folder : Folder)
    (rest : List String) :
    text? (insertEntry name entry folder) (name :: rest) = textBehind (some entry) rest := by
  rw [text?_cons, lookup?_insertEntry]

theorem text?_insertEntry_of_ne {name other : String} (h : other ≠ name) (entry : FolderEntry)
    (folder : Folder) (rest : List String) :
    text? (insertEntry name entry folder) (other :: rest) = folder.text? (other :: rest) := by
  rw [text?_cons, text?_cons, lookup?_insertEntry_of_ne h]

/-- A folder that is not there yet is made. -/
def innerFolder (folder : Folder) (name : String) : Folder :=
  match lookup? name folder with
  | some (.folder inner) => inner
  | _ => []

/-! ### Writing -/

theorem write_cons_eq_ok {text name next : String} {rest : List String}
    (h : folder.write text (name :: next :: rest) = .ok after) :
    ∃ inner, write text (folder.innerFolder name) (next :: rest) = .ok inner ∧
      after = insertEntry name (.folder inner) folder ∧
      ∀ behind, textBehind (lookup? name folder) behind = text? (folder.innerFolder name) behind := by
  unfold innerFolder
  rw [write] at h
  · cases hlookup : lookup? name folder with
    | none =>
      rw [hlookup] at h
      obtain ⟨inner, hinner, h⟩ := bind_eq_ok_iff.mp h
      exact ⟨inner, hinner, (Except.ok.inj h).symm, fun behind => (text?_empty behind).symm⟩
    | some entry =>
      rw [hlookup] at h
      cases entry with
      | file before => cases h
      | folder before =>
        obtain ⟨inner, hinner, h⟩ := bind_eq_ok_iff.mp h
        exact ⟨inner, hinner, (Except.ok.inj h).symm, fun _ => rfl⟩
  · exact fun heq => List.cons_ne_nil _ _ heq

theorem write_singleton_eq_ok {text name : String} (h : folder.write text [name] = .ok after) :
    after = insertEntry name (.file text) folder ∧
      ∀ behind, behind ≠ [] → textBehind (lookup? name folder) behind = none := by
  rw [write] at h
  split at h
  · cases h
  · rename_i hlookup
    refine ⟨(Except.ok.inj h).symm, fun behind hbehind => ?_⟩
    obtain ⟨next, rest, rfl⟩ := List.exists_cons_of_ne_nil hbehind
    cases hname : lookup? name folder with
    | none => rfl
    | some entry =>
      cases entry with
      | folder inner => exact absurd hname (hlookup inner)
      | file before => rfl

/-- **A file that is written has its text, and the others keep theirs.** -/
theorem text?_write {text : String} {place : List String} (h : folder.write text place = .ok after)
    (other : List String) :
    after.text? other = if other = place then some text else folder.text? other := by
  induction place generalizing folder after other with
  | nil => cases h
  | cons name rest ih =>
    cases other with
    | nil => rfl
    | cons n behind =>
      by_cases hn : n = name
      · -- under the same name the rest of the way decides
        subst hn
        rw [text?_cons folder]
        cases rest with
        | nil =>
          obtain ⟨rfl, hbefore⟩ := write_singleton_eq_ok h
          rw [text?_insertEntry_self]
          cases behind with
          | nil => rw [if_pos rfl]; rfl
          | cons next behind => rw [if_neg (by simp), hbefore _ (by simp)]; rfl
        | cons next rest =>
          obtain ⟨inner, hinner, rfl, hbefore⟩ := write_cons_eq_ok h
          rw [text?_insertEntry_self, hbefore]
          show text? inner behind = _
          rw [ih hinner]
          simp only [List.cons.injEq, true_and]
      · have hother : ∀ entry : FolderEntry, text? (insertEntry name entry folder) (n :: behind)
            = folder.text? (n :: behind) := fun entry => text?_insertEntry_of_ne hn entry folder behind
        rw [if_neg fun heq => hn (List.cons.inj heq).1]
        cases rest with
        | nil =>
          obtain ⟨rfl, -⟩ := write_singleton_eq_ok h
          exact hother _
        | cons next rest =>
          obtain ⟨inner, -, rfl, -⟩ := write_cons_eq_ok h
          exact hother _

/-! ### Making folders -/

theorem makeFolders_cons_eq_ok {name : String} {rest : List String}
    (h : folder.makeFolders (name :: rest) = .ok after) :
    ∃ inner, makeFolders (folder.innerFolder name) rest = .ok inner ∧
      after = insertEntry name (.folder inner) folder ∧
      ∀ behind, textBehind (lookup? name folder) behind = text? (folder.innerFolder name) behind := by
  unfold innerFolder
  rw [makeFolders] at h
  cases hlookup : lookup? name folder with
  | none =>
    rw [hlookup] at h
    obtain ⟨inner, hinner, h⟩ := bind_eq_ok_iff.mp h
    exact ⟨inner, hinner, (Except.ok.inj h).symm, fun behind => (text?_empty behind).symm⟩
  | some entry =>
    rw [hlookup] at h
    cases entry with
    | file before => cases h
    | folder before =>
      obtain ⟨inner, hinner, h⟩ := bind_eq_ok_iff.mp h
      exact ⟨inner, hinner, (Except.ok.inj h).symm, fun _ => rfl⟩

/-- **Folders that are made hold no texts.** -/
theorem text?_makeFolders {place : List String} (h : folder.makeFolders place = .ok after)
    (other : List String) : after.text? other = folder.text? other := by
  induction place generalizing folder after other with
  | nil => rw [Except.ok.inj h]
  | cons name rest ih =>
    obtain ⟨inner, hinner, rfl, hbefore⟩ := makeFolders_cons_eq_ok h
    cases other with
    | nil => rfl
    | cons n behind =>
      by_cases hn : n = name
      · rw [hn, text?_insertEntry_self, text?_cons, hbefore]
        exact ih hinner behind
      · rw [text?_insertEntry_of_ne hn]

/-! ### Erasing -/

/-- A file stands under its name. -/
theorem lookup?_of_text?_singleton {name text : String} (h : folder.text? [name] = some text) :
    lookup? name folder = some (.file text) := by
  rw [text?_cons] at h
  cases hlookup : lookup? name folder with
  | none =>
    rw [hlookup] at h
    cases h
  | some entry =>
    rw [hlookup] at h
    cases entry with
    | file _ => rw [Option.some.inj h]
    | folder _ => cases h

/-- A file behind a name is in a folder. -/
theorem exists_folder_of_text? {name next : String} {rest : List String} {text : String}
    (h : folder.text? (name :: next :: rest) = some text) :
    ∃ inner, lookup? name folder = some (.folder inner) ∧
      text? inner (next :: rest) = some text := by
  rw [text?_cons] at h
  cases hlookup : lookup? name folder with
  | none =>
    rw [hlookup] at h
    cases h
  | some entry =>
    rw [hlookup] at h
    cases entry with
    | file _ => cases h
    | folder inner => exact ⟨inner, rfl, h⟩

/-- **A file that is erased has no text any more, and the others keep theirs.** -/
theorem text?_erase {place : List String} {text : String} (h : folder.text? place = some text)
    (other : List String) :
    text? (folder.erase place) other = if other = place then none else folder.text? other := by
  induction place generalizing folder other with
  | nil => cases h
  | cons name rest ih =>
    cases other with
    | nil => rfl
    | cons n behind =>
      cases rest with
      | nil =>
        rw [erase, text?_cons, text?_cons folder]
        by_cases hn : n = name
        · rw [hn, lookup?_filter_self]
          cases behind with
          | nil => rw [if_pos rfl]; rfl
          | cons next behind =>
            rw [if_neg (by simp), lookup?_of_text?_singleton h]
            rfl
        · rw [lookup?_filter_of_ne hn, if_neg fun heq => hn (List.cons.inj heq).1]
      | cons next rest =>
        obtain ⟨inner, hlookup, htext⟩ := exists_folder_of_text? h
        have herase : folder.erase (name :: next :: rest)
            = insertEntry name (.folder (erase inner (next :: rest))) folder := by
          rw [erase, hlookup]
          exact fun heq => List.cons_ne_nil _ _ heq
        rw [herase]
        by_cases hn : n = name
        · rw [hn, text?_insertEntry_self, text?_cons, hlookup]
          show text? (erase inner (next :: rest)) behind = _
          rw [ih htext]
          simp only [List.cons.injEq, true_and]
          rfl
        · rw [text?_insertEntry_of_ne hn, if_neg fun heq => hn (List.cons.inj heq).1]

end Folder

/-! ### Places of temporary files -/

namespace FilePath

/-- The last name of a path is resolved behind what the others lead to. -/
theorem resolve_append_singleton (backwards front : List String) :
    ∃ before, ∀ name, resolve backwards (front ++ [name]) = resolve before [name] := by
  induction front generalizing backwards with
  | nil => exact ⟨backwards, fun _ => rfl⟩
  | cons first front ih =>
    cases backwards with
    | nil => exact ih [first]
    | cons previous before =>
      simp only [List.cons_append, resolve]
      split_ifs
      · exact ih before
      · exact ih (first :: previous :: before)

theorem resolve_singleton_ne (before : List String) (name : String) :
    resolve before [name] ≠ resolve before [name ++ ".tmp"] := by
  have hlength : (name ++ ".tmp").length = name.length + 4 := String.length_append ..
  have hne : name ≠ name ++ ".tmp" := by
    intro heq
    rw [← heq] at hlength
    omega
  have hdots : name ++ ".tmp" ≠ ".." := by
    intro heq
    rw [heq] at hlength
    have : ("..".length : Nat) = 2 := rfl
    omega
  cases before with
  | nil =>
    show [name] ≠ [name ++ ".tmp"]
    simpa using hne
  | cons previous rest =>
    simp only [resolve, hdots, decide_false, Bool.false_and, Bool.false_eq_true, if_false]
    split_ifs
    · -- a double dot makes the way shorter
      intro heq
      have := congrArg List.length heq
      simp at this
    · simpa using hne

/-- **The temporary file stands at another place.** -/
theorem place_ne_temporary {path temporary : FilePath} (h : path.temporary? = some temporary) :
    path.place ≠ temporary.place := by
  obtain ⟨rooted, names⟩ := path
  obtain ⟨name, hname, rfl⟩ := Option.map_eq_some_iff.mp h
  obtain ⟨front, rfl⟩ := List.getLast?_eq_some_iff.mp hname
  obtain ⟨before, hbefore⟩ := resolve_append_singleton [] front
  have hne := resolve_singleton_ne before name
  simp only [place, List.dropLast_concat, hbefore]
  split_ifs
  · simpa using hne
  · exact hne

end FilePath

/-! ### Putting a text in the place of a file -/

namespace SnapshotFile

/-- **A text that is put in the place of a file is found there**, and everything else is found as
before, the place of the temporary file excepted. -/
theorem text?_replace {folder after : Folder} {path temporary : FilePath} {text : String}
    (htemporary : path.temporary? = some temporary)
    (h : replace folder path temporary text = (after, none)) :
    after.text? path.place = some text ∧
      ∀ place, place ≠ path.place → place ≠ temporary.place →
        after.text? place = folder.text? place := by
  unfold replace at h
  split at h
  · cases h
  · rename_i started hstarted
    split at h
    · cases h
    · rename_i finished hfinished
      obtain rfl := (Prod.mk.inj h).1
      have hplaces := FilePath.place_ne_temporary htemporary
      have hstartedText := Folder.text?_write hstarted
      have hfinishedText := Folder.text?_write hfinished
      have hwritten : finished.text? temporary.place = some text := by
        rw [hfinishedText, if_neg hplaces.symm, hstartedText, if_pos rfl]
      constructor
      · rw [Folder.text?_erase hwritten, if_neg hplaces, hfinishedText, if_pos rfl]
      · intro place hpath htemp
        rw [Folder.text?_erase hwritten, if_neg htemp, hfinishedText, if_neg hpath, hstartedText,
          if_neg htemp]

end SnapshotFile

end FuzzySearch
