import FuzzySearch.Proofs.Value.Walk

/-!
# Items in lists of their own

The items of a list can be put into lists of their own, one at a time (`Value.Boxed`).  Where a path
ends, lists inside lists are walked through, so this changes nothing there; but an item that is
visited while a part of the path is still ahead is looked up by name, and a list has no names.

`Boxed.loses` says what is lost: the texts that the path leads to through the item, if it goes on
from there, and nothing else.  Hence what is found stays the same exactly if there are none
(`valueAt_boxed_iff`).
-/

namespace FuzzySearch

namespace Value

/-! ### Changing one place of a value -/

/-- A list or tuple with other items. -/
def withItems (v : Value) (items : List Value) : Value :=
  match v with
  | list _ => list items
  | tuple _ => tuple items
  | v => v

/-- A mapping or object with another value under a name that it has. -/
def withMember (v : Value) (name : String) (child : Value) : Value :=
  match v with
  | mapping entries => mapping (insertEntry name child entries)
  | object attributes => object (insertEntry name child attributes)
  | v => v

/-- `Boxed v path w item onward`: a list is met when `v` is visited with a path, and `w` is `v` with
one item of that list put into a list of its own.  The items of the list are visited with the path
`onward`; none of them is visited when the list stands in another one before the end of the path. -/
inductive Boxed : Value → List String → Value → Value → Option (List String) → Prop
  /-- The path ends at the list. -/
  | atEnd {v item : Value} {before after : List Value} :
      v.items? = some (before ++ item :: after) →
      Boxed v [] (v.withItems (before ++ list [item] :: after)) item (some [])
  | insideEnd {v w w' item : Value} {before after : List Value} {onward : Option (List String)} :
      v.items? = some (before ++ w :: after) → Boxed w [] w' item onward →
      Boxed v [] (v.withItems (before ++ w' :: after)) item onward
  /-- A list has no names to go on with. -/
  | leftOut {v item : Value} {name : String} {rest : List String} {before after : List Value} :
      v.items? = some (before ++ item :: after) →
      Boxed v (name :: rest) (v.withItems (before ++ list [item] :: after)) item none
  /-- The list stands under the next name. -/
  | found {v child item : Value} {name : String} {rest : List String} {before after : List Value} :
      v.member? name = some child → child.items? = some (before ++ item :: after) →
      Boxed v (name :: rest)
        (v.withMember name (child.withItems (before ++ list [item] :: after))) item (some rest)
  | insideFound {v child w w' item : Value} {name : String} {rest : List String}
      {before after : List Value} {onward : Option (List String)} :
      v.member? name = some child → child.items? = some (before ++ w :: after) →
      Boxed w rest w' item onward →
      Boxed v (name :: rest) (v.withMember name (child.withItems (before ++ w' :: after))) item onward
  | inside {v child child' item : Value} {name : String} {rest : List String}
      {onward : Option (List String)} :
      v.member? name = some child → child.items? = none → Boxed child rest child' item onward →
      Boxed v (name :: rest) (v.withMember name child') item onward

theorem items?_withItems {v : Value} {items : List Value} (h : v.items? = some items)
    (items' : List Value) : (v.withItems items').items? = some items' := by
  cases v <;> first | rfl | cases h

theorem isScalar_of_items? {v : Value} {items : List Value} (h : v.items? = some items) :
    v.isScalar = false := by
  cases v <;> first | rfl | cases h

theorem ne_null_of_items? {v : Value} {items : List Value} (h : v.items? = some items) :
    v ≠ null := by
  rintro rfl
  cases h

/-- Lists have no names. -/
theorem items?_of_member? {v child : Value} {name : String} (h : v.member? name = some child) :
    v.items? = none := by
  cases v <;> first | rfl | cases h

theorem member?_withMember {v child : Value} {name : String} (h : v.member? name = some child)
    (child' : Value) : (v.withMember name child').member? name = some child' := by
  cases v with
  | mapping entries => exact lookup?_insertEntry name child' entries
  | object attributes => exact lookup?_insertEntry name child' attributes
  | _ => cases h

theorem child?_of_member? {v child : Value} {name : String} (h : v.member? name = some child)
    (hne : child ≠ null) : v.child? name = some child := by
  unfold child?
  rw [h]
  cases child <;> first | rfl | exact absurd rfl hne

theorem child?_of_items? {v : Value} {items : List Value} (h : v.items? = some items)
    (name : String) : v.child? name = none := by
  cases v <;> first | rfl | cases h

namespace Boxed

variable {v w item : Value} {path : List String} {onward : Option (List String)}

theorem ne_null (h : Boxed v path w item onward) : v ≠ null ∧ w ≠ null := by
  have hmember : ∀ {v child : Value} {name : String} (child' : Value),
      v.member? name = some child → v ≠ null ∧ v.withMember name child' ≠ null := by
    intro v child name child' h
    cases v with
    | mapping entries | object attributes => exact ⟨nofun, nofun⟩
    | _ => cases h
  cases h with
  | atEnd hitems | insideEnd hitems | leftOut hitems =>
    exact ⟨ne_null_of_items? hitems, ne_null_of_items? (items?_withItems hitems _)⟩
  | found hchild | insideFound hchild | inside hchild => exact hmember _ hchild

/-- A list remains a list, and nothing else becomes one. -/
theorem isSome_items? (h : Boxed v path w item onward) :
    w.items?.isSome = v.items?.isSome := by
  cases h with
  | atEnd hitems | insideEnd hitems | leftOut hitems => rw [items?_withItems hitems, hitems]; rfl
  | found hchild | insideFound hchild | inside hchild =>
    rw [items?_of_member? hchild, items?_of_member? (member?_withMember hchild _)]

/-- The same lists stand under names. -/
theorem crosses_eq (h : Boxed v path w item onward) : w.crosses path = v.crosses path := by
  induction h with
  | atEnd | insideEnd => rfl
  | leftOut hitems =>
    rw [crosses, crosses, child?_of_items? hitems, child?_of_items? (items?_withItems hitems _)]
  | found hchild hitems | insideFound hchild hitems _ _ =>
    have hlist := items?_withItems hitems
    rw [crosses, crosses, child?_of_member? hchild (ne_null_of_items? hitems),
      child?_of_member? (member?_withMember hchild _) (ne_null_of_items? (hlist _))]
    simp only [hitems, hlist, Option.isSome_some, Bool.true_or]
  | inside hchild _ hboxed ih =>
    rw [crosses, crosses, child?_of_member? hchild hboxed.ne_null.1,
      child?_of_member? (member?_withMember hchild _) hboxed.ne_null.2]
    simp only [hboxed.isSome_items?, ih]

end Boxed

end Value

/-! ### What is lost -/

/-- Some texts, and what is left when others among them are lost that stand side by side. -/
def Loses (lost texts texts' : List String) : Prop :=
  ∃ front back, texts = front ++ (lost ++ back) ∧ texts' = front ++ back

namespace Loses

theorem refl (texts : List String) : Loses [] texts texts := ⟨texts, [], by simp, by simp⟩

/-- What is lost of one list is lost of several. -/
theorem flatMap {f : Value → List String} {lost : List String} {w w' : Value}
    (h : Loses lost (f w) (f w')) (before after : List Value) :
    Loses lost ((before ++ w :: after).flatMap f) ((before ++ w' :: after).flatMap f) := by
  obtain ⟨front, back, hw, hw'⟩ := h
  refine ⟨before.flatMap f ++ front, back ++ after.flatMap f, ?_, ?_⟩ <;>
    simp only [List.flatMap_append, List.flatMap_cons, List.append_assoc, hw, hw']

/-- Nothing changes exactly if nothing is lost. -/
theorem eq_iff {lost texts texts' : List String} (h : Loses lost texts texts') :
    texts' = texts ↔ lost = [] := by
  obtain ⟨front, back, rfl, rfl⟩ := h
  rw [List.append_cancel_left_eq]
  constructor
  · intro heq
    have hlength := congrArg List.length heq
    rw [List.length_append] at hlength
    exact List.eq_nil_of_length_eq_zero (by omega)
  · rintro rfl
    rfl

end Loses

namespace Value

/-- The texts that an item leads to, if the path goes on when it is visited. -/
def textsBehind (item : Value) : Option (List String) → List String
  | some (name :: rest) => item.walk (name :: rest)
  | _ => []

theorem walk_of_items? {v : Value} {items : List Value} (h : v.items? = some items) :
    v.walk [] = items.flatMap (walk · []) := by
  rw [walk_nil, isScalar_of_items? h, h]
  rfl

theorem walk_of_member? {v child : Value} {name : String} {items : List Value}
    (hchild : v.member? name = some child) (hitems : child.items? = some items)
    (rest : List String) : v.walk (name :: rest) = items.flatMap (walk · rest) := by
  rw [walk_cons, child?_of_member? hchild (ne_null_of_items? hitems)]
  simp only [hitems]

/-- An item in a list of its own is walked through at the end of the path, and left out before. -/
theorem loses_singleton (item : Value) (path : List String) :
    Loses (item.textsBehind (some path)) (item.walk path) ((list [item]).walk path) := by
  cases path with
  | nil =>
    rw [walk_of_items? (show (list [item]).items? = some [item] from rfl), List.flatMap_singleton]
    exact Loses.refl _
  | cons name rest =>
    rw [walk_cons (list [item])]
    exact ⟨[], [], (List.append_nil _).symm, rfl⟩

/-- **The texts behind an item are lost when the item is put into a list of its own**, and nothing
else is. -/
theorem Boxed.loses {v w item : Value} {path : List String} {onward : Option (List String)}
    (h : Boxed v path w item onward) :
    Loses (item.textsBehind onward) (v.walk path) (w.walk path) := by
  -- the induction follows the visits that lead to the list
  induction h with
  | atEnd hitems =>
    rw [walk_of_items? hitems, walk_of_items? (items?_withItems hitems _)]
    exact (loses_singleton _ []).flatMap _ _
  | insideEnd hitems _ ih =>
    rw [walk_of_items? hitems, walk_of_items? (items?_withItems hitems _)]
    exact ih.flatMap _ _
  | leftOut hitems =>
    rw [walk_cons, walk_cons, child?_of_items? hitems,
      child?_of_items? (items?_withItems hitems _)]
    exact Loses.refl []
  | found hchild hitems =>
    rw [walk_of_member? hchild hitems,
      walk_of_member? (member?_withMember hchild _) (items?_withItems hitems _)]
    exact (loses_singleton _ _).flatMap _ _
  | insideFound hchild hitems _ ih =>
    rw [walk_of_member? hchild hitems,
      walk_of_member? (member?_withMember hchild _) (items?_withItems hitems _)]
    exact ih.flatMap _ _
  | inside hchild hitems hboxed ih =>
    have hsome := hboxed.isSome_items?
    rw [hitems, Option.isSome_none, Option.isSome_eq_false_iff, Option.isNone_iff_eq_none] at hsome
    rw [walk_cons, walk_cons, child?_of_member? hchild hboxed.ne_null.1,
      child?_of_member? (member?_withMember hchild _) hboxed.ne_null.2]
    simpa only [hitems, hsome] using ih

end Value

/-! ### What is found -/

/-- Field values without a list hold all their texts, so they differ when their texts do. -/
theorem pathValue_eq_iff {texts texts' : List String} {crossed : Bool}
    (h : crossed = false → texts.length ≤ 1 ∧ texts'.length ≤ 1) :
    pathValue texts crossed = pathValue texts' crossed ↔ texts = texts' := by
  constructor
  · intro heq
    cases crossed with
    | true => exact PathValue.many.inj heq
    | false =>
      obtain ⟨hle, hle'⟩ := h rfl
      match texts, texts', heq with
      | [], [], _ => rfl
      | [text], [text'], heq => rw [PathValue.single.inj heq]
      | [], text' :: _, heq => cases heq
      | text :: _, [], heq => cases heq
      | _ :: _ :: _, _, _ => simp at hle
      | _, _ :: _ :: _, _ => simp at hle'
  · rintro rfl
    rfl

/-- **To put an item of a list into a list of its own leaves what is found unchanged exactly if the
path ends at that list, or leads nowhere from the item.**  A list that is left out in the middle of
the path can be changed in any case. -/
theorem valueAt_boxed_iff {v w item : Value} {name : String} {rest : List String}
    {onward : Option (List String)} (h : Value.Boxed v (name :: rest) w item onward) :
    valueAt w (name :: rest) = valueAt v (name :: rest) ↔
      ∀ ahead, onward = some ahead → ahead = [] ∨ item.walk ahead = [] := by
  have hshort : v.crosses (name :: rest) = false →
      (w.walk (name :: rest)).length ≤ 1 ∧ (v.walk (name :: rest)).length ≤ 1 := by
    intro hcrosses
    exact ⟨Value.length_walk_le_one (h.crosses_eq.trans hcrosses),
      Value.length_walk_le_one hcrosses⟩
  rw [valueAt_eq_pathValue, valueAt_eq_pathValue, h.crosses_eq, pathValue_eq_iff hshort,
    h.loses.eq_iff]
  match onward with
  | none => simp [Value.textsBehind]
  | some [] => simp [Value.textsBehind]
  | some (next :: more) => simp [Value.textsBehind]

/-- An author without a name can stand in a list of its own. -/
theorem valueAt_boxed_without_text :
    let terry : Value := .mapping [("name", .text "Terry")]
    let other : Value := .mapping [("alias", .text "N")]
    let record : Value := .mapping [("authors", .list [terry, other])]
    let boxed : Value := .mapping [("authors", .list [terry, .list [other]])]
    let path := ["authors", "name"]
    Value.Boxed record path boxed other (some ["name"]) ∧
      valueAt boxed path = valueAt record path ∧ valueAt record path = .many ["Terry"] := by
  intro terry other record boxed path
  have hboxed : Value.Boxed record path boxed other (some ["name"]) :=
    @Value.Boxed.found record (.list [terry, other]) other "authors" ["name"] [terry] [] rfl rfl
  refine ⟨hboxed, (valueAt_boxed_iff hboxed).mpr ?_, by decide +kernel⟩
  rintro _ ⟨⟩
  exact Or.inr (by decide +kernel)

/-- An author with a name is lost in a list of its own, because the path goes on from there. -/
theorem author_lost_in_box :
    let author : Value := .mapping [("name", .text "Terry")]
    let record : Value := .mapping [("authors", .list [author])]
    let boxed : Value := .mapping [("authors", .list [.list [author]])]
    let path := ["authors", "name"]
    Value.Boxed record path boxed author (some ["name"]) ∧
      valueAt record path = .many ["Terry"] ∧ valueAt boxed path = .many [] := by
  intro author record boxed path
  refine ⟨?_, by decide +kernel, by decide +kernel⟩
  exact @Value.Boxed.found record (.list [author]) author "authors" ["name"] [] [] rfl rfl

end FuzzySearch
