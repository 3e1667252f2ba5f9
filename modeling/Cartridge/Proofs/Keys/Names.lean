import Cartridge.Keys.Derivation

/-!
# The names of keys

A key that encrypts key areas or title keys is found under a few names, which tell its index and its
generation. All of them are in lower case. Two of them that are for different things differ in their
first letter, in their length or in the digits of the generation.

The key that encrypts title keys is derived from names of its own. None of them is a name that the
header key or a key for key areas is found under: they begin with another letter, in whatever case
they are written.

Results:
* `not_isTitleKekName_of_head?`: a name with another first letter is none of them.
* `areaKeyName_mem_areaKeyNames`, `titleKekName_mem_titleKekNames`: the name of a key that is not to be
  derived is a name for no other key.
* `areaKey_of_agree`, `titleKek_of_agree`: a key depends on the keys under its own names alone.
* `headerKey?_congr`, `areaKey_congr`: the header key and the keys for key areas depend on the keys
  under other names alone.
* `titleKek_congr`: the key for title keys depends on the named keys alone.
-/

namespace Cartridge

theorem toList_foldCase (name : String) : (foldCase name).toList = name.toList.map Char.toLower :=
  String.toList_ofList

namespace KeyStore

variable {keys keys' : KeyStore} {name : String}

/-- The lower-case names that only the key for title keys is found under or derived from. -/
def IsTitleKekName (name : String) : Prop :=
  name = "titlekek_source" ∨ ∃ generation, name = titleKekName generation

theorem head?_of_isTitleKekName (h : IsTitleKekName name) : name.toList.head? = some 't' := by
  rcases h with rfl | ⟨generation, rfl⟩
  · rfl
  · unfold titleKekName generationName
    simp only [String.toList_append, List.append_assoc]
    rfl

theorem not_isTitleKekName_of_head? {c : Char} (h : name.toList.head? = some c)
    (hc : c.toLower ≠ 't') : ¬ IsTitleKekName (foldCase name) := by
  intro hname
  have hhead := head?_of_isTitleKekName hname
  rw [toList_foldCase, List.head?_map, h] at hhead
  exact hc (Option.some.inj hhead)

/-! ## First letters -/

theorem head?_generationName {stem : String} {c : Char} (h : stem.toList.head? = some c)
    (generation : UInt8) : (generationName stem generation).toList.head? = some c := by
  unfold generationName
  simp only [String.toList_append, List.head?_append, h, Option.some_or]

theorem head?_areaKeyName (index : KeyIndex) (generation : UInt8) :
    (areaKeyName index generation).toList.head? = some 'k' := by
  refine head?_generationName ?_ generation
  cases index <;> rfl

theorem head?_areaKeySourceName (index : KeyIndex) :
    (areaKeySourceName index).toList.head? = some 'k' := by
  cases index <;> rfl

theorem head?_masterKeyName (generation : UInt8) :
    (masterKeyName generation).toList.head? = some 'm' :=
  head?_generationName rfl generation

/-! ## What keys are found under -/

/-- The names that a key for key areas is found under or derived from. -/
def areaKeyNames (index : KeyIndex) (generation : UInt8) : List String :=
  [areaKeyName index generation, areaKeySourceName index, masterKeyName generation,
    "aes_kek_generation_source", "aes_key_generation_source"]

/-- The names that a key for title keys is found under or derived from. -/
def titleKekNames (generation : UInt8) : List String :=
  [titleKekName generation, masterKeyName generation, "titlekek_source"]

variable {index index' : KeyIndex} {generation generation' : UInt8}

/-- A generation is written with the two digits of its byte. -/
theorem toList_generationName (stem : String) (generation : UInt8) :
    (generationName stem generation).toList = stem.toList ++ '_' :: Hex.byte generation := by
  have hdigits : ∀ n : Fin 256, (Nat.toDigits 16 n).leftpad 2 '0' =
      [Hex.digit (n / 16), Hex.digit (n % 16)] := by
    decide +kernel
  have hpadded : (Hex.padded 2 generation.toNat).toList = Hex.byte generation := by
    rw [Hex.padded, String.toList_ofList]
    exact hdigits ⟨generation.toNat, generation.toNat_lt⟩
  unfold generationName
  rw [String.toList_append, String.toList_append, hpadded, List.append_assoc]
  rfl

theorem generationName_eq (stem : String) (generation : UInt8) :
    generationName stem generation = stem ++ "_" ++ Hex.encode [generation] := by
  have hdigits : (Hex.encode [generation]).toList = Hex.byte generation :=
    String.toList_ofList.trans (List.append_nil _)
  refine String.toList_injective ?_
  rw [toList_generationName, String.toList_append, String.toList_append, hdigits, List.append_assoc]
  rfl

theorem length_generationName (stem : String) (generation : UInt8) :
    (generationName stem generation).toList.length = stem.toList.length + 3 := by
  rw [toList_generationName, List.length_append]
  rfl

theorem generationName_inj {stem : String} :
    generationName stem generation = generationName stem generation' ↔ generation = generation' := by
  constructor
  · intro h
    have hlist := congrArg String.toList h
    rw [toList_generationName, toList_generationName, List.append_cancel_left_eq] at hlist
    have hbytes : Hex.encodeChars [generation] = Hex.encodeChars [generation'] :=
      congrArg (· ++ []) (List.cons.inj hlist).2
    have hdecode := Hex.decode?_encodeChars [generation]
    rw [hbytes, Hex.decode?_encodeChars] at hdecode
    exact (List.cons.inj (Option.some.inj hdecode)).1.symm
  · rintro rfl
    rfl

/-- The name of a key that is not to be derived is that of no other one. -/
theorem areaKeyName_inj :
    areaKeyName index generation = areaKeyName index' generation' ↔
      index = index' ∧ generation = generation' := by
  constructor
  · intro h
    have hlength := congrArg (fun name => name.toList.length) h
    simp only [areaKeyName, length_generationName] at hlength
    obtain rfl : index = index' := by
      revert hlength
      cases index <;> cases index' <;> decide
    exact ⟨rfl, generationName_inj.mp h⟩
  · rintro ⟨rfl, rfl⟩
    rfl

theorem areaKeyName_ne_areaKeySourceName :
    areaKeyName index generation ≠ areaKeySourceName index' := by
  intro h
  have hlength := congrArg (fun name => name.toList.length) h
  simp only [areaKeyName, length_generationName] at hlength
  revert hlength
  cases index <;> cases index' <;> decide

theorem ne_of_head? {name name' : String} {c c' : Char} (h : name.toList.head? = some c)
    (h' : name'.toList.head? = some c') (hne : c ≠ c') : name ≠ name' := by
  rintro rfl
  exact hne (Option.some.inj (h.symm.trans h'))

/-- **The name of a key for key areas is a name for no other one.** -/
theorem areaKeyName_mem_areaKeyNames :
    areaKeyName index generation ∈ areaKeyNames index' generation' ↔
      index = index' ∧ generation = generation' := by
  have harea := head?_areaKeyName index generation
  have hmaster := ne_of_head? harea (head?_masterKeyName generation') (by decide)
  have hkek : areaKeyName index generation ≠ "aes_kek_generation_source" :=
    ne_of_head? harea rfl (by decide)
  have hkey : areaKeyName index generation ≠ "aes_key_generation_source" :=
    ne_of_head? harea rfl (by decide)
  simp only [areaKeyNames, List.mem_cons, List.not_mem_nil, areaKeyName_inj,
    areaKeyName_ne_areaKeySourceName, hmaster, hkek, hkey, or_false]

theorem areaKeyName_not_mem_titleKekNames :
    areaKeyName index generation ∉ titleKekNames generation' := by
  have harea := head?_areaKeyName index generation
  have hname := ne_of_head? harea (head?_of_isTitleKekName (.inr ⟨generation', rfl⟩)) (by decide)
  have hmaster := ne_of_head? harea (head?_masterKeyName generation') (by decide)
  have hsource := ne_of_head? harea (head?_of_isTitleKekName (.inl rfl)) (by decide)
  simp only [titleKekNames, List.mem_cons, List.not_mem_nil, hname, hmaster, hsource, or_false,
    not_false_eq_true]

theorem head?_of_mem_areaKeyNames {name : String} (h : name ∈ areaKeyNames index generation) :
    ∃ c, name.toList.head? = some c ∧ c.toLower ≠ 't' := by
  simp only [areaKeyNames, List.mem_cons, List.not_mem_nil, or_false] at h
  rcases h with rfl | rfl | rfl | rfl | rfl
  · exact ⟨_, head?_areaKeyName index generation, by decide⟩
  · exact ⟨_, head?_areaKeySourceName index, by decide⟩
  · exact ⟨_, head?_masterKeyName generation, by decide⟩
  · exact ⟨'a', rfl, by decide⟩
  · exact ⟨'a', rfl, by decide⟩

/-- **The name of a key for title keys is a name for no other one.** -/
theorem titleKekName_mem_titleKekNames :
    titleKekName generation ∈ titleKekNames generation' ↔ generation = generation' := by
  have hmaster := ne_of_head? (head?_of_isTitleKekName (.inr ⟨generation, rfl⟩))
    (head?_masterKeyName generation') (by decide)
  have hsource : titleKekName generation ≠ "titlekek_source" := by
    intro h
    have hlength := congrArg (fun name => name.toList.length) h
    rw [titleKekName, length_generationName] at hlength
    revert hlength
    decide
  simp only [titleKekNames, List.mem_cons, List.not_mem_nil, hmaster, hsource, or_false]
  exact generationName_inj

theorem titleKekName_not_mem_areaKeyNames :
    titleKekName generation ∉ areaKeyNames index generation' := by
  intro h
  obtain ⟨c, hc, hne⟩ := head?_of_mem_areaKeyNames h
  rw [head?_of_isTitleKekName (.inr ⟨generation, rfl⟩)] at hc
  exact hne (by rw [← Option.some.inj hc]; rfl)

/-- A generation is written in lower case. -/
theorem foldCase_generationName {stem : String} (h : foldCase stem = stem) (generation : UInt8) :
    foldCase (generationName stem generation) = generationName stem generation := by
  have hdigit : ∀ n : Fin 16, (Hex.digit n).toLower = Hex.digit n := by decide
  have hlt := generation.toNat_lt
  have hhigh := hdigit ⟨generation.toNat / 16, by omega⟩
  have hlow := hdigit ⟨generation.toNat % 16, by omega⟩
  refine String.toList_injective ?_
  rw [toList_foldCase, toList_generationName, List.map_append, ← toList_foldCase, h, List.map_cons,
    Hex.byte, List.map_cons, List.map_cons, hhigh, hlow]
  rfl

theorem foldCase_areaKeyName : foldCase (areaKeyName index generation) = areaKeyName index generation :=
  foldCase_generationName (by cases index <;> decide) generation

theorem foldCase_titleKekName : foldCase (titleKekName generation) = titleKekName generation :=
  foldCase_generationName (by decide) generation

theorem foldCase_of_mem_areaKeyNames {name : String} (h : name ∈ areaKeyNames index generation) :
    foldCase name = name := by
  simp only [areaKeyNames, List.mem_cons, List.not_mem_nil, or_false] at h
  rcases h with rfl | rfl | rfl | rfl | rfl
  · exact foldCase_areaKeyName
  · cases index <;> decide
  · exact foldCase_generationName (by decide) generation
  · decide
  · decide

theorem foldCase_of_mem_titleKekNames {name : String} (h : name ∈ titleKekNames generation) :
    foldCase name = name := by
  simp only [titleKekNames, List.mem_cons, List.not_mem_nil, or_false] at h
  rcases h with rfl | rfl | rfl
  · exact foldCase_titleKekName
  · exact foldCase_generationName (by decide) generation
  · decide

/-! ## What keys depend on -/

theorem aesKey?_eq_some_iff {key : Block} :
    keys.aesKey? name = some key ↔ keys.key? name = some (.single key) := by
  unfold aesKey?
  rcases keys.key? name with _ | _ | _ <;> simp

theorem aesKey?_congr (h : keys'.key? name = keys.key? name) :
    keys'.aesKey? name = keys.aesKey? name := by
  unfold aesKey?
  rw [h]

theorem headerKey?_congr
    (h : ∀ name, ¬ IsTitleKekName (foldCase name) → keys'.key? name = keys.key? name) :
    keys'.headerKey? = keys.headerKey? := by
  unfold headerKey?
  rw [h headerKeyName (not_isTitleKekName_of_head? (c := 'h') rfl (by decide))]

/-- **A key for key areas depends on the keys under its own names alone.** -/
theorem areaKey_of_agree
    (h : ∀ name ∈ areaKeyNames index generation, keys'.key? name = keys.key? name) :
    keys'.areaKey index generation = keys.areaKey index generation := by
  simp only [areaKeyNames, List.forall_mem_cons] at h
  obtain ⟨hname, hsource, hmaster, hkek, hkey, -⟩ := h
  unfold areaKey registeredOr deriveAreaKey?
  rw [aesKey?_congr hname, aesKey?_congr hsource, aesKey?_congr hmaster, aesKey?_congr hkek,
    aesKey?_congr hkey]

/-- **A key for title keys depends on the keys under its own names alone.** -/
theorem titleKek_of_agree
    (h : ∀ name ∈ titleKekNames generation, keys'.key? name = keys.key? name) :
    keys'.titleKek generation = keys.titleKek generation := by
  simp only [titleKekNames, List.forall_mem_cons] at h
  obtain ⟨hname, hmaster, hsource, -⟩ := h
  unfold titleKek registeredOr deriveTitleKek?
  rw [aesKey?_congr hname, aesKey?_congr hmaster, aesKey?_congr hsource]

/-- A key for key areas does not depend on the keys that only serve title keys. -/
theorem areaKey_congr
    (h : ∀ name, ¬ IsTitleKekName (foldCase name) → keys'.key? name = keys.key? name)
    (index : KeyIndex) (generation : UInt8) :
    keys'.areaKey index generation = keys.areaKey index generation := by
  refine areaKey_of_agree fun name hname => ?_
  obtain ⟨c, hc, hne⟩ := head?_of_mem_areaKeyNames hname
  exact h name (not_isTitleKekName_of_head? hc hne)

/-- The key for title keys depends on no title key. -/
theorem titleKek_congr (h : keys'.keys = keys.keys) (generation : UInt8) :
    keys'.titleKek generation = keys.titleKek generation := by
  refine titleKek_of_agree fun name _ => ?_
  unfold key?
  rw [h]

end KeyStore

end Cartridge
