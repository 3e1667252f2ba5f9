import Cartridge.Cipher.Modes
import Cartridge.Proofs.Keys.Names

/-!
# Which keys are found

A key for key areas or for title keys is the one that is registered under its name, or else it is derived
from others, or else it is missing. A key of thirty-two bytes does not count. What is registered under a
name that serves another key, or none, makes no difference.

Results:
* `toList_unwrapKey`: how one key decrypts another.
* `namedBy_keyName`: how the names of keys are written.
* `resolves_registeredOr`: a key is the registered one, the derived one or missing.
* `areaKey_of_setKey`, `titleKek_of_setKey`: registering a key leaves those alone that it does not serve.
* `keys_resolve`: which keys a store gives, and which of them a registration can change.
-/

namespace Cartridge

/-- One key decrypts another in codebook mode. -/
theorem toList_unwrapKey (wrapping wrapped : Block) :
    (unwrapKey wrapping wrapped).toList = Codebook.decrypt (Aes.cipher wrapping) wrapped.toList :=
  (Codebook.decrypt_toList (Aes.cipher wrapping) wrapped).symm

namespace KeyStore

variable {s s' : KeyStore} {name : String} {value : List UInt8} {index : KeyIndex}
  {generation : UInt8}

/-! ## Names -/

/-- How the names are written that the keys of an index and a generation are found under: with the word
for the index, and with the generation in two lower-case digits. -/
structure NamedBy (index : KeyIndex) (word : String) (generation : UInt8) : Prop where
  areaKey : areaKeyName index generation = "key_area_key_" ++ word ++ "_" ++ Hex.encode [generation]
  areaKeySource : areaKeySourceName index = "key_area_key_" ++ word ++ "_source"
  masterKey : masterKeyName generation = "master_key_" ++ Hex.encode [generation]
  titleKek : titleKekName generation = "titlekek_" ++ Hex.encode [generation]

theorem namedBy_keyName (index : KeyIndex) (generation : UInt8) :
    NamedBy index index.keyName generation where
  areaKey := generationName_eq _ generation
  areaKeySource := rfl
  masterKey := generationName_eq _ generation
  titleKek := generationName_eq _ generation

/-! ## Registered, derived or missing -/

/-- A key of sixteen bytes is registered under a name. -/
def Registers (s : KeyStore) (name : String) (key : Block) : Prop := s.key? name = some (.single key)

/-- The key for key areas that comes of keys that are registered: the master key decrypts the seed of a
key, which decrypts the source, which decrypts the seed of the result. -/
def DerivesAreaKey (s : KeyStore) (index : KeyIndex) (generation : UInt8) (key : Block) : Prop :=
  ∃ source masterKey kekSeed keySeed kek sourceKek : Block,
    s.Registers (areaKeySourceName index) source ∧ s.Registers (masterKeyName generation) masterKey ∧
      s.Registers "aes_kek_generation_source" kekSeed ∧
      s.Registers "aes_key_generation_source" keySeed ∧
      (Aes.cipher masterKey).decrypt kekSeed = kek ∧ (Aes.cipher kek).decrypt source = sourceKek ∧
      (Aes.cipher sourceKek).decrypt keySeed = key

/-- The key for title keys that comes of keys that are registered: the master key decrypts the source. -/
def DerivesTitleKek (s : KeyStore) (generation : UInt8) (key : Block) : Prop :=
  ∃ masterKey source : Block,
    s.Registers (masterKeyName generation) masterKey ∧ s.Registers "titlekek_source" source ∧
      (Aes.cipher masterKey).decrypt source = key

/-- The key with a name is the registered one, or else the derived one, or else it is missing. -/
structure Resolves (s : KeyStore) (name : String) (Derives : Block → Prop)
    (answer : Except Error Block) : Prop where
  ok_iff : ∀ key, answer = .ok key ↔
    s.Registers name key ∨ (∀ other, ¬ s.Registers name other) ∧ Derives key
  error_iff : ∀ e, answer = .error e ↔
    e = .missingAreaKey name ∧ (∀ key, ¬ s.Registers name key) ∧ ∀ key, ¬ Derives key

theorem deriveAreaKey?_eq_some_iff {key : Block} :
    s.deriveAreaKey? index generation = some key ↔ s.DerivesAreaKey index generation key := by
  unfold deriveAreaKey? DerivesAreaKey Registers
  simp only [← aesKey?_eq_some_iff]
  constructor
  · intro h
    obtain ⟨source, hsource, h⟩ := Option.bind_eq_some_iff.mp h
    obtain ⟨masterKey, hmaster, h⟩ := Option.bind_eq_some_iff.mp h
    obtain ⟨kekSeed, hkek, h⟩ := Option.bind_eq_some_iff.mp h
    obtain ⟨keySeed, hkey, h⟩ := Option.bind_eq_some_iff.mp h
    exact ⟨source, masterKey, kekSeed, keySeed, _, _, hsource, hmaster, hkek, hkey, rfl, rfl,
      Option.some.inj h⟩
  · rintro ⟨source, masterKey, kekSeed, keySeed, kek, sourceKek, hsource, hmaster, hkek, hkey,
      rfl, rfl, rfl⟩
    rw [hsource, hmaster, hkek, hkey]
    rfl

theorem deriveTitleKek?_eq_some_iff {key : Block} :
    s.deriveTitleKek? generation = some key ↔ s.DerivesTitleKek generation key := by
  unfold deriveTitleKek? DerivesTitleKek Registers
  simp only [← aesKey?_eq_some_iff]
  constructor
  · intro h
    obtain ⟨masterKey, hmaster, h⟩ := Option.bind_eq_some_iff.mp h
    obtain ⟨source, hsource, h⟩ := Option.bind_eq_some_iff.mp h
    exact ⟨masterKey, source, hmaster, hsource, Option.some.inj h⟩
  · rintro ⟨masterKey, source, hmaster, hsource, rfl⟩
    rw [hmaster, hsource]
    rfl

/-- **A key is the registered one, the derived one or missing.** -/
theorem resolves_registeredOr {derived : Option Block} {Derives : Block → Prop}
    (h : ∀ key, derived = some key ↔ Derives key) (message : String) :
    s.Resolves name Derives (s.registeredOr name derived message).result := by
  unfold registeredOr
  cases hname : s.aesKey? name with
  | some key =>
    have hkey : ∀ other, s.Registers name other ↔ key = other := fun other => by
      rw [Registers, ← aesKey?_eq_some_iff, hname, Option.some_inj]
    have hsome : ¬ ∀ other, ¬ s.Registers name other := fun hno => hno key ((hkey key).mpr rfl)
    refine ⟨fun other => ?_, fun e => iff_of_false nofun fun he => hsome he.2.1⟩
    rw [Traced.result_pure, Except.ok.injEq, hkey]
    exact (or_iff_left fun hother => hsome hother.1).symm
  | none =>
    have hnone : ∀ other, ¬ s.Registers name other := fun other hother => by
      rw [Registers, ← aesKey?_eq_some_iff, hname] at hother
      cases hother
    cases derived with
    | some key =>
      refine ⟨fun other => ?_, fun e => iff_of_false nofun fun he => he.2.2 key ((h key).mp rfl)⟩
      rw [← h, or_iff_right (hnone other), and_iff_right hnone]
      exact ⟨fun hkey => congrArg some (Except.ok.inj hkey),
        fun hkey => congrArg Except.ok (Option.some.inj hkey)⟩
    | none =>
      have hno : ∀ key, ¬ Derives key := fun key hkey => nomatch (h key).mpr hkey
      refine ⟨fun other => iff_of_false nofun ?_, fun e => ?_⟩
      · rintro (hother | ⟨-, hother⟩)
        · exact hnone other hother
        · exact hno other hother
      · rw [Traced.result_fail, Except.error.injEq, and_iff_left ⟨hnone, hno⟩]
        exact eq_comm

theorem resolves_areaKey (s : KeyStore) (index : KeyIndex) (generation : UInt8) :
    s.Resolves (areaKeyName index generation) (s.DerivesAreaKey index generation)
      (s.areaKey index generation).result :=
  resolves_registeredOr (fun _ => deriveAreaKey?_eq_some_iff) _

theorem resolves_titleKek (s : KeyStore) (generation : UInt8) :
    s.Resolves (titleKekName generation) (s.DerivesTitleKek generation)
      (s.titleKek generation).result :=
  resolves_registeredOr (fun _ => deriveTitleKek?_eq_some_iff) _

/-! ## Registering other keys -/

theorem key?_of_setKey (h : s.setKey name value = .ok s') {other : String}
    (hother : foldCase other ≠ foldCase name) : s'.key? other = s.key? other := by
  unfold setKey at h
  split at h
  · cases h
  · split at h
    · cases h
      unfold key?
      rw [Catalog.find?_insert, if_neg hother]
    · cases h

theorem areaKey_of_setKey (h : s.setKey name value = .ok s')
    (hname : foldCase name ∉ areaKeyNames index generation) :
    s'.areaKey index generation = s.areaKey index generation := by
  refine areaKey_of_agree fun other hother => key?_of_setKey h fun heq => hname ?_
  rw [← heq, foldCase_of_mem_areaKeyNames hother]
  exact hother

theorem titleKek_of_setKey (h : s.setKey name value = .ok s')
    (hname : foldCase name ∉ titleKekNames generation) :
    s'.titleKek generation = s.titleKek generation := by
  refine titleKek_of_agree fun other hother => key?_of_setKey h fun heq => hname ?_
  rw [← heq, foldCase_of_mem_titleKekNames hother]
  exact hother

/-- Between two stores, of which the second one has one more key under a name, only those keys change
that the name serves. -/
structure Spares (s s' : KeyStore) (name : String) : Prop where
  areaKey : ∀ index generation, foldCase name ∉ areaKeyNames index generation →
    s'.areaKey index generation = s.areaKey index generation
  titleKek : ∀ generation, foldCase name ∉ titleKekNames generation →
    s'.titleKek generation = s.titleKek generation
  /-- The name of a key for key areas serves that one only. -/
  byAreaKeyName : ∀ index generation, foldCase name = areaKeyName index generation →
    (∀ index' generation', (index', generation') ≠ (index, generation) →
      s'.areaKey index' generation' = s.areaKey index' generation') ∧
      ∀ generation', s'.titleKek generation' = s.titleKek generation'
  /-- The name of a key for title keys serves that one only. -/
  byTitleKekName : ∀ generation, foldCase name = titleKekName generation →
    (∀ index generation', s'.areaKey index generation' = s.areaKey index generation') ∧
      ∀ generation', generation' ≠ generation → s'.titleKek generation' = s.titleKek generation'

theorem spares_of_setKey (h : s.setKey name value = .ok s') : s.Spares s' name where
  areaKey _ _ := areaKey_of_setKey h
  titleKek _ := titleKek_of_setKey h
  byAreaKeyName index generation hname := by
    refine ⟨fun index' generation' hne => areaKey_of_setKey h fun hmem => ?_,
      fun generation' => titleKek_of_setKey h fun hmem => ?_⟩
    · rw [hname, areaKeyName_mem_areaKeyNames] at hmem
      exact hne (by rw [hmem.1, hmem.2])
    · rw [hname] at hmem
      exact areaKeyName_not_mem_titleKekNames hmem
  byTitleKekName generation hname := by
    refine ⟨fun index generation' => areaKey_of_setKey h fun hmem => ?_,
      fun generation' hne => titleKek_of_setKey h fun hmem => ?_⟩
    · rw [hname] at hmem
      exact titleKekName_not_mem_areaKeyNames hmem
    · rw [hname, titleKekName_mem_titleKekNames] at hmem
      exact hne hmem.symm

/-- **The keys for key areas and for title keys are the registered ones, the derived ones or missing**, and
registering a key changes only what its name serves. The names tell the index and the generation. -/
theorem keys_resolve (s : KeyStore) :
    (∀ index generation, s.Resolves (areaKeyName index generation)
      (s.DerivesAreaKey index generation) (s.areaKey index generation).result) ∧
    (∀ generation, s.Resolves (titleKekName generation) (s.DerivesTitleKek generation)
      (s.titleKek generation).result) ∧
    (∀ name value s', s.setKey name value = .ok s' → s.Spares s' name) ∧
    ∀ generation, NamedBy .application "application" generation ∧
      NamedBy .ocean "ocean" generation ∧ NamedBy .system "system" generation :=
  ⟨resolves_areaKey s, resolves_titleKek s, fun _ _ _ => spares_of_setKey, fun generation =>
    ⟨namedBy_keyName .application generation, namedBy_keyName .ocean generation,
      namedBy_keyName .system generation⟩⟩

/-- In an empty store a key for key areas is registered in capital letters. It is found under its own
name, and the one of the next generation is missing as before. -/
theorem keys_resolve_capitals :
    ∃ s', empty.setKey "KEY_AREA_KEY_OCEAN_05" (List.replicate 16 7) = .ok s' ∧
      (s'.areaKey .ocean 5).result = .ok ⟨List.replicate 16 7, rfl⟩ ∧
      s'.areaKey .ocean 6 = empty.areaKey .ocean 6 := by
  obtain ⟨s', hs'⟩ : ∃ s', empty.setKey "KEY_AREA_KEY_OCEAN_05" (List.replicate 16 7) = .ok s' :=
    ⟨_, rfl⟩
  have hname : foldCase "KEY_AREA_KEY_OCEAN_05" = areaKeyName .ocean 5 := by decide +kernel
  refine ⟨s', hs', (((keys_resolve s').1 .ocean 5).ok_iff _).mpr (.inl ?_),
    (((keys_resolve empty).2.2.1 _ _ s' hs').byAreaKeyName .ocean 5 hname).1 .ocean 6 (by decide)⟩
  cases hs'
  rw [Registers, key?, foldCase_areaKeyName, Catalog.find?_insert, if_pos hname.symm]

end KeyStore

end Cartridge
