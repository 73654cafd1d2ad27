import FuzzySearch.Proofs.Bitap.Exact
import FuzzySearch.Proofs.Decimal.Endless
import FuzzySearch.Proofs.Key

/-!
# The weights of keys

The description of a key gives a weight, or one if it is silent.  The weight is refused if it is at
most zero; a value that is no number, and an infinity, are not at most zero, so they are overlooked
(`Key.weight?_eq_none_iff`).

* `WeightedKeys.error_of_weight`: any other weight that is no positive number is refused.
* `WeightedKeys.exists_ofSpecs`: in exact arithmetic nothing else is refused, if keys have names.
* `WeightedKeys.usable_of_described`: in exact arithmetic the weights of a store are positive and sum
  up to one.
* `WeightedKeys.not_pos_of_overlooked`: a single weight that was overlooked leaves no positive
  weight in the store.
-/

namespace FuzzySearch

open ScoreNumber

/-! ### Single weights -/

namespace Key

/-- The weight that a description gives; a path, and a mapping that has no weight, give one. -/
def givenWeight : Value → Value
  | .mapping entries => (lookup? "weight" entries).getD (.int 1)
  | _ => .int 1

/-- A finite positive number. -/
def IsPositiveWeight : Value → Prop
  | .int n => 0 < n
  | .float x => Decimal.IsPositive x
  | _ => False

/-- A value that is no number, or the positive infinity. -/
def IsOverlooked : Value → Prop
  | .float x => x.isNaN = true ∨ x.isInf = true ∧ 0.0 < x
  | _ => False

variable {α : Type} [ScoreNumber α]

/-- **A weight is refused unless it is a positive number, or overlooked.** -/
theorem weight?_eq_none_iff (v : Value) :
    (weight? v : Option (Except SearchError α)) = none ↔
      ¬ IsPositiveWeight v ∧ ¬ IsOverlooked v := by
  cases v with
  | int n =>
    show _ ↔ ¬ 0 < n ∧ ¬ False
    rw [weight?, not_lt]
    split_ifs with h
    · exact iff_of_true rfl ⟨h, not_false⟩
    · exact iff_of_false (fun hnone => by cases hnone) fun hle => h hle.1
  | float x =>
    show _ ↔ ¬ Decimal.IsPositive x ∧ ¬ (x.isNaN = true ∨ x.isInf = true ∧ 0.0 < x)
    rw [weight?, ← not_or, ← Decimal.not_le_zero_iff, not_not]
    split_ifs with h
    · exact iff_of_true rfl h
    · exact iff_of_false (fun hnone => by cases hnone) h
  | _ => exact iff_of_true rfl ⟨not_false, not_false⟩

/-- In exact arithmetic a weight that is not refused is positive: a positive number counts as what
it is, and what is overlooked counts as one. -/
theorem weight?_rat {v : Value} {weight : Rat} (h : weight? v = some (.ok weight)) :
    0 < weight := by
  cases v with
  | int n =>
    rw [weight?] at h
    split_ifs at h with hn
    obtain rfl : (n : Rat) = weight := Except.ok.inj (Option.some.inj h)
    exact Int.cast_pos.mpr (not_le.mp hn)
  | float x =>
    rw [weight?] at h
    split_ifs at h with hx
    obtain rfl : (ofFloat x : Rat) = weight := Except.ok.inj (Option.some.inj h)
    show 0 < ((Decimal.decode? x).map Decimal.Binary.toRat).getD 1
    rcases (Decimal.not_le_zero_iff x).mp hx with ⟨b, hb, hpos⟩ | hendless
    · rwa [hb]
    · rw [((Decimal.endless_iff x).mpr (hendless.imp_right And.left)).decode?_eq_none]
      exact one_pos
  | _ => cases h

omit [ScoreNumber α] in
theorem weight_of_ofPath {source : Value} {weight : Except SearchError α} {key : Key α}
    (h : ofPath source weight = .ok key) : weight = .ok key.weight := by
  obtain ⟨path, -, h⟩ := bind_eq_ok_iff.mp h
  obtain ⟨id, -, h⟩ := bind_eq_ok_iff.mp h
  obtain ⟨weight, hweight, h⟩ := bind_eq_ok_iff.mp h
  obtain rfl := pure_eq_ok_iff.mp h
  exact hweight

/-- A key has the weight that its description gives, or one if that is silent. -/
theorem weight_of_ofDescription {spec : Value} {key : Key α} (h : ofDescription spec = .ok key) :
    givenWeight spec = .int 1 ∧ key.weight = one ∨
      weight? (givenWeight spec) = some (.ok key.weight) := by
  unfold ofDescription at h
  split at h
  iterate 3 exact .inl ⟨rfl, (Except.ok.inj (weight_of_ofPath h)).symm⟩
  · split at h
    · cases h
    · split at h
      · cases h
      · rename_i hweight
        exact .inr (hweight.trans (congrArg some (weight_of_ofPath h)))
  · cases h

/-- The weight of an accepted description is positive or overlooked. -/
theorem isPositiveWeight_or_isOverlooked {spec : Value} {key : Key α}
    (h : ofDescription spec = .ok key) :
    IsPositiveWeight (givenWeight spec) ∨ IsOverlooked (givenWeight spec) := by
  rcases weight_of_ofDescription h with ⟨hone, -⟩ | hweight
  · rw [hone]
    exact .inl Int.one_pos
  · by_contra hneither
    have hnone := (@weight?_eq_none_iff α _ (givenWeight spec)).mpr (not_or.mp hneither)
    rw [hnone] at hweight
    cases hweight

/-- A description whose weight is neither positive nor overlooked is refused. -/
theorem ofDescription_of_weight {entries : List (String × Value)} {name : Value}
    (hname : lookup? "name" entries = some name)
    (hpositive : ¬ IsPositiveWeight (givenWeight (.mapping entries)))
    (hoverlooked : ¬ IsOverlooked (givenWeight (.mapping entries))) :
    (ofDescription (.mapping entries) : Except SearchError (Key α))
      = .error (.invalidWeight name.plain) := by
  have hnone := (@weight?_eq_none_iff α _ _).mpr ⟨hpositive, hoverlooked⟩
  rw [givenWeight] at hnone
  simp only [ofDescription, hname, hnone]

/-- In exact arithmetic no weight is too large. -/
theorem exists_weight? {v : Value} (h : IsPositiveWeight v ∨ IsOverlooked v) :
    ∃ weight : Rat, weight? v = some (.ok weight) := by
  have hne := mt (@weight?_eq_none_iff Rat _ v).mp (not_and_or.mpr
    (h.imp not_not.mpr not_not.mpr))
  unfold weight? at hne ⊢
  split at hne
  · split_ifs at hne ⊢
    · exact absurd rfl hne
    · exact ⟨_, rfl⟩
  · split_ifs at hne ⊢
    · exact absurd rfl hne
    · exact ⟨_, rfl⟩
  · exact absurd rfl hne

/-- A path, or a mapping that has a text for a name. -/
def IsNamed : Value → Prop
  | .text _ | .list _ | .tuple _ => True
  | .mapping entries => ∃ name, lookup? "name" entries = some (.text name)
  | _ => False

/-- In exact arithmetic a description with a name is accepted with any other weight. -/
theorem exists_ofDescription {spec : Value} (hnamed : IsNamed spec)
    (hweight : IsPositiveWeight (givenWeight spec) ∨ IsOverlooked (givenWeight spec)) :
    ∃ key : Key Rat, ofDescription spec = .ok key := by
  cases spec with
  | text | list | tuple => exact ⟨_, rfl⟩
  | mapping entries =>
    obtain ⟨name, hname⟩ := hnamed
    obtain ⟨weight, hweight⟩ := exists_weight? hweight
    rw [givenWeight] at hweight
    refine ⟨⟨pathOfText name, .text name, weight, .text name⟩, ?_⟩
    simp only [ofDescription, hname, hweight]
    rfl
  | _ => exact hnamed.elim

/-- In exact arithmetic a key that is described has a positive weight. -/
theorem weight_pos {spec : Value} {key : Key Rat} (h : ofDescription spec = .ok key) :
    0 < key.weight := by
  rcases weight_of_ofDescription h with ⟨-, hone⟩ | hweight
  · rw [hone, one_rat]
    exact one_pos
  · exact weight?_rat hweight

/-- Among doubles an overlooked weight is kept, and is endless. -/
theorem endless_weight {spec : Value} {key : Key Float} (h : ofDescription spec = .ok key)
    (hoverlooked : IsOverlooked (givenWeight spec)) : Decimal.Endless key.weight := by
  rcases weight_of_ofDescription h with ⟨hone, -⟩ | hweight
  · rw [hone] at hoverlooked
    exact hoverlooked.elim
  · generalize givenWeight spec = v at hoverlooked hweight
    cases v with
    | float x =>
      have hx : ¬ x ≤ 0.0 := (Decimal.not_le_zero_iff x).mpr (.inr hoverlooked)
      rw [weight?, if_neg hx] at hweight
      have hkey : x = key.weight := Except.ok.inj (Option.some.inj hweight)
      rw [← hkey]
      exact (Decimal.endless_iff x).mpr (hoverlooked.imp_right And.left)
    | _ => exact hoverlooked.elim

end Key

/-! ### Stores -/

/-- A list of calls fails as the first of them that fails. -/
theorem mapM_eq_error_of_first {ε β γ : Type} {f : β → Except ε γ} {front rest : List β} {x : β}
    {e : ε} (hfront : ∀ y ∈ front, ∃ z, f y = .ok z) (hx : f x = .error e) :
    (front ++ x :: rest).mapM f = .error e := by
  obtain ⟨ys, hys⟩ := exists_mapM_eq_ok hfront
  rw [List.mapM_append, hys, List.mapM_cons, hx]
  rfl

namespace WeightedKeys

variable {α : Type} [ScoreNumber α] {specs : List Value}

/-- A store is made of keys whose weights are divided by their sum. -/
theorem exists_keys_of_ofSpecs {store : WeightedKeys α}
    (h : ofSpecs (specs.map .described) = .ok store) :
    ∃ keys, List.Forall₂ (fun spec key => Key.ofDescription spec = .ok key) specs keys ∧
      store.keys.map (·.weight)
        = (keys.map (·.weight)).map fun w => w / sum (keys.map (·.weight)) := by
  obtain ⟨keys, hkeys, -, rfl⟩ := ofSpecs_eq_ok_iff.mp h
  refine ⟨keys, List.forall₂_map_left_iff.mp (mapM_eq_ok_iff.mp hkeys), ?_⟩
  rw [ofKeys, List.map_map, List.map_map]
  rfl

/-- In exact arithmetic keys that are described make a store: the sum of positive weights is not
zero. -/
theorem exists_ofSpecs {specs : List Value}
    (h : ∀ spec ∈ specs, ∃ key : Key Rat, Key.ofDescription spec = .ok key) :
    ∃ store : WeightedKeys Rat, ofSpecs (specs.map .described) = .ok store := by
  obtain ⟨keys, hkeys, hpos⟩ := exists_forall₂_of_mapM (f := Key.ofDescription)
    (r := fun _ key => 0 < key.weight) fun spec hspec =>
      (h spec hspec).imp fun key hkey => ⟨hkey, Key.weight_pos hkey⟩
  refine ⟨ofKeys keys, ofSpecs_eq_ok_iff.mpr ⟨keys, ?_, ?_, rfl⟩⟩
  · rw [mapM_eq_ok_iff, List.forall₂_map_left_iff]
    exact mapM_eq_ok_iff.mp hkeys
  · refine or_iff_not_imp_left.mpr fun hne => ?_
    have hsum : 0 < (keys.map (·.weight)).sum := by
      refine List.sum_pos _ (fun w hw => ?_) (mt List.map_eq_nil_iff.mp hne)
      obtain ⟨key, hkey, rfl⟩ := List.mem_map.mp hw
      obtain ⟨spec, -, hweight⟩ := exists_of_mem_forall₂ hpos hkey
      exact hweight
    rw [← Bool.not_eq_true, isZero_rat_iff, sum_rat]
    exact hsum.ne'

/-- The weights that a store accepts are positive or overlooked. -/
theorem weights_of_ofSpecs {store : WeightedKeys α}
    (h : ofSpecs (specs.map .described) = .ok store) {spec : Value} (hspec : spec ∈ specs) :
    Key.IsPositiveWeight (Key.givenWeight spec) ∨ Key.IsOverlooked (Key.givenWeight spec) := by
  obtain ⟨keys, hkeys, -⟩ := exists_keys_of_ofSpecs h
  obtain ⟨key, -, hkey⟩ := exists_of_mem_forall₂ hkeys.flip hspec
  exact Key.isPositiveWeight_or_isOverlooked hkey

/-- **A weight that is neither positive nor overlooked is refused.** -/
theorem error_of_weight {front rest : List Value} {entries : List (String × Value)} {name : Value}
    (hfront : ∀ spec ∈ front, ∃ key : Key α, Key.ofDescription spec = .ok key)
    (hname : lookup? "name" entries = some name)
    (hpositive : ¬ Key.IsPositiveWeight (Key.givenWeight (.mapping entries)))
    (hoverlooked : ¬ Key.IsOverlooked (Key.givenWeight (.mapping entries))) :
    (ofSpecs ((front ++ .mapping entries :: rest).map .described) :
      Except SearchError (WeightedKeys α)) = .error (.invalidWeight name.plain) := by
  have herror : Key.ofSpec (α := α) (.described (.mapping entries)) =
      .error (.invalidWeight name.plain) :=
    Key.ofDescription_of_weight hname hpositive hoverlooked
  have hfront' : ∀ spec ∈ front.map (KeySpec.described (α := α)),
      ∃ key, Key.ofSpec spec = .ok key :=
    List.forall_mem_map.mpr hfront
  rw [ofSpecs, List.map_append, List.map_cons,
    mapM_eq_error_of_first (x := .described (.mapping entries)) hfront' herror]
  rfl

/-- Positive weights that are divided by their sum are positive and sum up to one. -/
theorem normalized {weights : List Rat} (hpos : ∀ w ∈ weights, 0 < w) (hne : weights ≠ []) :
    (∀ w ∈ weights.map (· / weights.sum), 0 < w) ∧ (weights.map (· / weights.sum)).sum = 1 := by
  have hsum := List.sum_pos weights hpos hne
  constructor
  · intro w hw
    obtain ⟨v, hv, rfl⟩ := List.mem_map.mp hw
    exact div_pos (hpos v hv) hsum
  · have hmul := List.sum_map_mul_right weights id weights.sum⁻¹
    simp only [id_eq, List.map_id, ← div_eq_mul_inv] at hmul
    rw [hmul, div_self hsum.ne']

/-- **In exact arithmetic the weights of a store are positive and sum up to one.** -/
theorem usable_of_described {store : WeightedKeys Rat}
    (h : ofSpecs (specs.map .described) = .ok store) :
    (∀ key ∈ store.keys, 0 < key.weight) ∧
      (specs ≠ [] → (store.keys.map (·.weight)).sum = 1) := by
  obtain ⟨keys, hkeys, hweights⟩ := exists_keys_of_ofSpecs h
  have hpos : ∀ w ∈ keys.map (·.weight), 0 < w := by
    intro w hw
    obtain ⟨key, hkey, rfl⟩ := List.mem_map.mp hw
    obtain ⟨spec, -, hspecified⟩ := exists_of_mem_forall₂ hkeys hkey
    exact Key.weight_pos hspecified
  rw [sum_rat] at hweights
  have hnil : specs = [] ↔ keys.map (·.weight) = [] := by
    rw [List.map_eq_nil_iff, ← List.length_eq_zero_iff, ← List.length_eq_zero_iff,
      hkeys.length_eq]
  constructor
  · intro key hkey
    have hmem := List.mem_map_of_mem (f := Key.weight) hkey
    rw [hweights] at hmem
    exact (normalized hpos fun hempty => by simp [hempty] at hmem).1 _ hmem
  · intro hne
    rw [hweights]
    exact (normalized hpos (mt hnil.mpr hne)).2

/-- **A single weight that was overlooked leaves no positive weight in a store.** -/
theorem not_pos_of_overlooked {store : WeightedKeys Float}
    (h : ofSpecs (specs.map .described) = .ok store) {spec : Value} (hspec : spec ∈ specs)
    (hoverlooked : Key.IsOverlooked (Key.givenWeight spec)) :
    ∀ key ∈ store.keys, ¬ 0.0 < key.weight := by
  obtain ⟨keys, hkeys, hweights⟩ := exists_keys_of_ofSpecs h
  obtain ⟨key, hkey, hspecified⟩ := exists_of_mem_forall₂ hkeys.flip hspec
  have htotal : Decimal.Endless (sum (keys.map (·.weight))) :=
    Decimal.endless_sum (List.mem_map_of_mem hkey) (Key.endless_weight hspecified hoverlooked)
  intro stored hstored
  have hmem := List.mem_map_of_mem (f := Key.weight) hstored
  rw [hweights] at hmem
  obtain ⟨w, -, hw⟩ := List.mem_map.mp hmem
  rw [← hw]
  exact htotal.not_pos_div w

/-! ### All that is accepted -/

omit specs in
/-- **The weights that a store accepts are usable, unless one was overlooked.**  The first weight
that is neither a positive number nor overlooked makes the store fail, and names its key; in exact
arithmetic no other weight does.  Where no weight was overlooked, those of the store are positive
and sum up to one in exact arithmetic; where one was, no weight of the store is positive. -/
theorem weights_usable_unless_overlooked (specs : List Value) :
    (∀ (α : Type) [ScoreNumber α], ∀ front entries name rest,
      specs = front ++ .mapping entries :: rest →
        (∀ spec ∈ front, ∃ key : Key α, Key.ofDescription spec = .ok key) →
        lookup? "name" entries = some name →
        ¬ Key.IsPositiveWeight (Key.givenWeight (.mapping entries)) →
        ¬ Key.IsOverlooked (Key.givenWeight (.mapping entries)) →
        (ofSpecs (specs.map .described) : Except SearchError (WeightedKeys α))
          = .error (.invalidWeight name.plain)) ∧
    (∀ (α : Type) [ScoreNumber α], ∀ store : WeightedKeys α,
      ofSpecs (specs.map .described) = .ok store →
      ∀ spec ∈ specs,
        Key.IsPositiveWeight (Key.givenWeight spec) ∨ Key.IsOverlooked (Key.givenWeight spec)) ∧
    ((∀ spec ∈ specs, Key.IsNamed spec ∧
        (Key.IsPositiveWeight (Key.givenWeight spec) ∨ Key.IsOverlooked (Key.givenWeight spec))) →
      ∃ store : WeightedKeys Rat, ofSpecs (specs.map .described) = .ok store) ∧
    (∀ store : WeightedKeys Rat, ofSpecs (specs.map .described) = .ok store →
      (∀ spec ∈ specs, ¬ Key.IsOverlooked (Key.givenWeight spec)) →
        (∀ key ∈ store.keys, 0 < key.weight) ∧
          (specs ≠ [] → (store.keys.map (·.weight)).sum = 1)) ∧
    (∀ store : WeightedKeys Float, ofSpecs (specs.map .described) = .ok store →
      (∃ spec ∈ specs, Key.IsOverlooked (Key.givenWeight spec)) →
        ∀ key ∈ store.keys, ¬ 0.0 < key.weight) := by
  refine ⟨?_, ?_, ?_, ?_, ?_⟩
  · rintro α _ front entries name rest rfl hfront hname hpositive hoverlooked
    exact error_of_weight hfront hname hpositive hoverlooked
  · intro α _ store hstore spec hspec
    exact weights_of_ofSpecs hstore hspec
  · intro hspecs
    refine exists_ofSpecs fun spec hspec => ?_
    obtain ⟨hnamed, hweight⟩ := hspecs spec hspec
    exact Key.exists_ofDescription hnamed hweight
  · intro store hstore _
    exact usable_of_described hstore
  · rintro store hstore ⟨spec, hspec, hoverlooked⟩
    exact not_pos_of_overlooked hstore hspec hoverlooked

/-- The weights one and three are accepted and sum up to one; a weight of zero behind them is
refused, and an infinite one leaves no positive weight. -/
theorem weights_usable_one_and_three :
    let specs : List Value :=
      [.text "title", .mapping [("name", .text "author"), ("weight", .int 3)]]
    let none : Value := .mapping [("name", .text "year"), ("weight", .int 0)]
    let endless : Value := .mapping [("name", .text "year"), ("weight", .float (1.0 / 0.0))]
    (∃ store : WeightedKeys Rat, ofSpecs (specs.map .described) = .ok store ∧
      (∀ key ∈ store.keys, 0 < key.weight) ∧ (store.keys.map (·.weight)).sum = 1) ∧
    (ofSpecs ((specs ++ [none]).map .described) : Except SearchError (WeightedKeys Rat))
      = .error (.invalidWeight "year") ∧
    ∃ store : WeightedKeys Float, ofSpecs ((specs ++ [endless]).map .described) = .ok store ∧
      ∀ key ∈ store.keys, ¬ 0.0 < key.weight := by
  intro specs none endless
  have hpositive : ∀ spec ∈ specs, ¬ Key.IsOverlooked (Key.givenWeight spec) := by
    intro spec hspec
    rcases List.mem_pair.mp hspec with rfl | rfl <;> exact id
  obtain ⟨exact, hexact⟩ : ∃ store : WeightedKeys Rat,
      ofSpecs (specs.map .described) = .ok store :=
    ⟨_, ofSpecs_eq_ok_iff.mpr ⟨_, rfl, .inr (by decide +kernel), rfl⟩⟩
  obtain ⟨rounded, hrounded⟩ : ∃ store : WeightedKeys Float,
      ofSpecs ((specs ++ [endless]).map .described) = .ok store :=
    ⟨_, ofSpecs_eq_ok_iff.mpr ⟨_, rfl, .inr (by decide +kernel), rfl⟩⟩
  refine ⟨⟨exact, hexact, ?_⟩, ?_, rounded, hrounded, ?_⟩
  · have husable := (weights_usable_unless_overlooked specs).2.2.2.1 _ hexact hpositive
    exact ⟨husable.1, husable.2 (List.cons_ne_nil _ _)⟩
  · refine (weights_usable_unless_overlooked (specs ++ [none])).1 Rat specs _ (.text "year") []
      rfl (fun spec hspec => ?_) rfl (lt_irrefl 0) id
    rcases List.mem_pair.mp hspec with rfl | rfl <;> exact ⟨_, rfl⟩
  · refine (weights_usable_unless_overlooked (specs ++ [endless])).2.2.2.2 _ hrounded
      ⟨endless, by simp, .inr ⟨by decide +kernel, by decide +kernel⟩⟩

/-- **A weight that is no number is accepted**, and becomes the weight of the key. -/
theorem not_a_number_accepted :
    let spec : Value := .mapping [("name", .text "a"), ("weight", .float (0.0 / 0.0))]
    ¬ Key.IsPositiveWeight (Key.givenWeight spec) ∧
      ∃ store : WeightedKeys Float, ofSpecs [.described spec] = .ok store ∧
        store.keys.map (·.weight.isNaN) = [true] := by
  intro spec
  let key : Key Float := ⟨["a"], .text "a", 0.0 / 0.0, .text "a"⟩
  have hkey : [KeySpec.described spec].mapM Key.ofSpec = .ok [key] := rfl
  have hweight : ScoreNumber.isZero (ScoreNumber.sum ([key].map (·.weight))) = false := by
    decide +kernel
  refine ⟨?_, _, ofSpecs_eq_ok_iff.mpr ⟨_, hkey, .inr hweight, rfl⟩, by decide +kernel⟩
  rintro ⟨b, hb, -⟩
  have hnone : Decimal.decode? (0.0 / 0.0) = none := by
    rw [Decimal.decode?_eq_parts]
    rfl
  exact Option.some_ne_none b (hb.symm.trans hnone)

end WeightedKeys

end FuzzySearch
