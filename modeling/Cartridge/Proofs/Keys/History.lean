import Cartridge.Proofs.Keys.Names
import Cartridge.Proofs.Keys.Streams
import Cartridge.Proofs.Numbering
import Mathlib.Data.List.Dedup

/-!
# What a key store remembers

A store is changed by single registrations and by text with many of them. What an operation does
depends on its arguments alone (`Operation.Does`): it succeeds and makes some writes, or it fails and
makes none. Any sequence of operations so has a history of writes, and every look-up in the store that
is left tells the last one of them that concerns it.

Results:
* `Operation.exists_does`, `Operation.Does.run_eq`: what each operation does, and that it does that.
* `Tables.write`, `Tables.foldl_apply`: a store remembers one more write, and any number of them.
* `run_recalls`: what is found after any operations, and that failed ones change nothing.
-/

namespace Cartridge

theorem foldCase_foldCase (name : String) : foldCase (foldCase name) = foldCase name := by
  unfold foldCase
  rw [String.toList_ofList, List.map_map]
  congr 1
  exact List.map_congr_left fun c _ => Text.toLower_toLower c

namespace KeyStore

/-! ## Operations -/

/-- What can be done to a store. -/
inductive Operation where
  | setKey (name : String) (value : List UInt8)
  | setTitleKey (rightsId : Bytes 16) (value : List UInt8)
  | setUserTitleKey (value : List UInt8)
  | removeUserTitleKey
  | loadKeys (text : List Char)
  | loadTitleKeys (text : List Char)
  | loadKeysFromStream (bytes : List UInt8)
  | loadTitleKeysFromStream (bytes : List UInt8)

/-- What an operation answers: nothing or a number of keys, or why it failed. -/
abbrev Answer := Except Error (Option Nat)

/-- Puts the next store in the place of the store, if there is one. -/
def replaceBy (next : KeyStore → Except Error KeyStore) (s : KeyStore) : Answer × KeyStore :=
  match next s with
  | .ok s' => (.ok none, s')
  | .error e => (.error e, s)

/-- Loads keys and answers their number. -/
def countBy (load : Access KeyStore Nat) (s : KeyStore) : Answer × KeyStore :=
  ((load.outcome s).1.map some, (load.outcome s).2)

/-- Carries out an operation. -/
def Operation.run : Operation → KeyStore → Answer × KeyStore
  | setKey name value => replaceBy fun s => s.setKey name value
  | setTitleKey rightsId value => replaceBy fun s => s.setTitleKey rightsId value
  | setUserTitleKey value => replaceBy fun s => s.setUserTitleKey value
  | removeUserTitleKey => replaceBy fun s => .ok s.removeUserTitleKey
  | loadKeys text => countBy (KeyStore.loadKeys text)
  | loadTitleKeys text => countBy (KeyStore.loadTitleKeys text)
  | loadKeysFromStream bytes => countBy (KeyStore.loadKeysFromStream bytes)
  | loadTitleKeysFromStream bytes => countBy (KeyStore.loadTitleKeysFromStream bytes)

/-- Carries out operations one after the other, whatever they answer. -/
def run : List Operation → KeyStore → List Answer × KeyStore
  | [], s => ([], s)
  | op :: rest, s => ((op.run s).1 :: (run rest (op.run s).2).1, (run rest (op.run s).2).2)

/-! ## Writes -/

/-- One change that is made to a store. -/
inductive Write where
  | named (name : String) (key : Key)
  | titled (rightsId : Bytes 16) (key : Block)
  | user (key : Block)
  | userRemoved

namespace Write

/-- The key that a write puts under a name, in whatever case it does. -/
def keyOf? (name : String) : Write → Option Key
  | named other key => if foldCase other = foldCase name then some key else none
  | _ => none

/-- The rights ID to which a write gives a title key. -/
def rightsId? : Write → Option (Bytes 16)
  | titled rightsId _ => some rightsId
  | _ => none

/-- The title key that a write gives to a rights ID. -/
def titleKeyOf? (rightsId : Bytes 16) : Write → Option Block
  | titled other key => if other = rightsId then some key else none
  | _ => none

/-- The user's title key as a write leaves it, if it changes it. -/
def userKey? : Write → Option (Option Block)
  | user key => some (some key)
  | userRemoved => some none
  | _ => none

/-- The store that a write makes. -/
def apply (s : KeyStore) : Write → KeyStore
  | named name key => { s with keys := s.keys.insert (foldCase name) key }
  | titled rightsId key => { s with titleKeys := s.titleKeys.insert rightsId key }
  | user key => { s with userTitleKey := some key }
  | userRemoved => { s with userTitleKey := none }

end Write

/-- What the last of several writes says that says anything. -/
def last? {β : Type} (said? : Write → Option β) (history : List Write) : Option β :=
  history.reverse.findSome? said?

theorem last?_concat {β : Type} (said? : Write → Option β) (history : List Write) (w : Write) :
    last? said? (history ++ [w]) = (said? w).or (last? said? history) := by
  rw [last?, List.reverse_concat, List.findSome?_cons]
  cases said? w <;> rfl

/-! ## What operations do -/

/-- What an operation answers and which writes it makes. -/
inductive Operation.Does : Operation → Answer → List Write → Prop
  | setKey {name : String} {key : Key} (hname : name ≠ "") :
    Does (.setKey name key.bytes) (.ok none) [.named name key]
  | setKey_noName {value : List UInt8} :
    Does (.setKey "" value) (.error (.invalidKey .emptyName)) []
  | setKey_length {name : String} {value : List UInt8} (hname : name ≠ "")
    (h16 : value.length ≠ 16) (h32 : value.length ≠ 32) :
    Does (.setKey name value) (.error (.invalidKey (.namedLength name value.length))) []
  | setTitleKey {rightsId : Bytes 16} {key : Block} :
    Does (.setTitleKey rightsId key.toList) (.ok none) [.titled rightsId key]
  | setTitleKey_length {rightsId : Bytes 16} {value : List UInt8} (h16 : value.length ≠ 16) :
    Does (.setTitleKey rightsId value) (.error (.invalidKey (.titleLength value.length))) []
  | setUserTitleKey {key : Block} : Does (.setUserTitleKey key.toList) (.ok none) [.user key]
  | setUserTitleKey_length {value : List UInt8} (h16 : value.length ≠ 16) :
    Does (.setUserTitleKey value) (.error (.invalidKey (.userTitleLength value.length))) []
  | removeUserTitleKey : Does .removeUserTitleKey (.ok none) [.userRemoved]
  | loadKeys {text : List Char} {writes : List (String × Key)}
    (h : Grammar.named.Writes (Text.lines text) writes) :
    Does (.loadKeys text) (.ok (some writes.length)) (writes.map fun w => .named w.1 w.2)
  | loadTitleKeys {text : List Char} {writes : List (Bytes 16 × Block)}
    (h : Grammar.titled.Writes (Text.lines text) writes) :
    Does (.loadTitleKeys text) (.ok (some writes.length)) (writes.map fun w => .titled w.1 w.2)
  | loadKeysFromStream {text : String} {writes : List (String × Key)}
    (h : Grammar.named.Writes (Text.lines text.toList) writes) :
    Does (.loadKeysFromStream (Utf8.encode text)) (.ok (some writes.length))
      (writes.map fun w => .named w.1 w.2)
  | loadKeysFromStream_notText {bytes : List UInt8} (h : ∀ text, bytes ≠ Utf8.encode text) :
    Does (.loadKeysFromStream bytes) (.error (.stream .notUtf8)) []
  | loadTitleKeysFromStream {text : String} {writes : List (Bytes 16 × Block)}
    (h : Grammar.titled.Writes (Text.lines text.toList) writes) :
    Does (.loadTitleKeysFromStream (Utf8.encode text)) (.ok (some writes.length))
      (writes.map fun w => .titled w.1 w.2)
  | loadTitleKeysFromStream_notText {bytes : List UInt8} (h : ∀ text, bytes ≠ Utf8.encode text) :
    Does (.loadTitleKeysFromStream bytes) (.error (.stream .notUtf8)) []

end KeyStore

theorem Key.ofBytes?_bytes (key : Key) : ofBytes? key.bytes = some key :=
  ofBytes?_eq_some_iff.mpr rfl

theorem Bytes.ofList?_eq_none_iff {n : Nat} {bytes : List UInt8} :
    ofList? n bytes = none ↔ bytes.length ≠ n := by
  unfold ofList?
  split <;> simp_all

theorem Key.ofBytes?_eq_none_iff {bytes : List UInt8} :
    ofBytes? bytes = none ↔ bytes.length ≠ 16 ∧ bytes.length ≠ 32 := by
  rw [← Bytes.ofList?_eq_none_iff, ← Bytes.ofList?_eq_none_iff, ofBytes?]
  cases Bytes.ofList? 16 bytes <;> cases Bytes.ofList? 32 bytes <;> simp

namespace KeyStore

/-- What is written from key text, write by write. -/
theorem foldl_putKey {text : List Char} {writes : List (String × Key)}
    (h : Grammar.named.Writes (Text.lines text) writes) (s : KeyStore) :
    writes.foldl putKey s = (writes.map fun w => Write.named w.1 w.2).foldl Write.apply s := by
  rw [List.foldl_map]
  refine List.foldl_ext _ _ s fun s w hw => ?_
  have hfold : foldCase w.1 = w.1 := by
    rw [(Grammar.writes_iff KeyLine.named_readBy).mp h, List.mem_filterMap] at hw
    obtain ⟨line, -, hline⟩ := hw
    obtain ⟨w', -, -, -, hname, -⟩ := KeyLine.named_readBy.eq_some_iff.mp hline
    rw [hname, foldCase_foldCase]
  rw [putKey, Write.apply, hfold]

theorem foldl_putTitleKey (writes : List (Bytes 16 × Block)) (s : KeyStore) :
    writes.foldl putTitleKey s = (writes.map fun w => Write.titled w.1 w.2).foldl Write.apply s := by
  rw [List.foldl_map]
  rfl

theorem countBy_loadKeys {text : List Char} {writes : List (String × Key)}
    (h : Grammar.named.Writes (Text.lines text) writes) (s : KeyStore) :
    countBy (loadKeys text) s = (.ok (some writes.length),
      (writes.map fun w => Write.named w.1 w.2).foldl Write.apply s) := by
  rw [← foldl_putKey h, countBy, outcome_loadKeys, ← (Grammar.writes_iff KeyLine.named_readBy).mp h]
  rfl

theorem countBy_loadTitleKeys {text : List Char} {writes : List (Bytes 16 × Block)}
    (h : Grammar.titled.Writes (Text.lines text) writes) (s : KeyStore) :
    countBy (loadTitleKeys text) s = (.ok (some writes.length),
      (writes.map fun w => Write.titled w.1 w.2).foldl Write.apply s) := by
  rw [← foldl_putTitleKey, countBy, outcome_loadTitleKeys,
    ← (Grammar.writes_iff KeyLine.titled_readBy).mp h]
  rfl

theorem StreamsAs.countBy_encode {fromText : List Char → Access KeyStore Nat}
    {fromStream : List UInt8 → Access KeyStore Nat} (h : StreamsAs fromText fromStream)
    (text : String) (s : KeyStore) :
    countBy (fromStream (Utf8.encode text)) s = countBy (fromText text.toList) s := by
  rw [countBy, countBy, Access.outcome, Access.outcome, h.text]

theorem StreamsAs.countBy_notText {fromText : List Char → Access KeyStore Nat}
    {fromStream : List UInt8 → Access KeyStore Nat} (h : StreamsAs fromText fromStream)
    {bytes : List UInt8} (hbytes : ∀ text, bytes ≠ Utf8.encode text) (s : KeyStore) :
    countBy (fromStream bytes) s = (.error (.stream .notUtf8), s) := by
  rw [countBy, Access.outcome, h.notText bytes s hbytes]
  rfl

section Does

variable {op : Operation} {answer : Answer} {writes : List Write}

/-- **An operation does in any store what it does.** -/
theorem Operation.Does.run_eq (h : op.Does answer writes) (s : KeyStore) :
    op.run s = (answer, writes.foldl Write.apply s) := by
  cases h with
  | setKey hname =>
    rw [Operation.run, replaceBy, KeyStore.setKey, if_neg hname, Key.ofBytes?_bytes]
    rfl
  | setKey_noName => rfl
  | setKey_length hname h16 h32 =>
    rw [Operation.run, replaceBy, KeyStore.setKey, if_neg hname,
      Key.ofBytes?_eq_none_iff.mpr ⟨h16, h32⟩]
    rfl
  | setTitleKey =>
    rw [Operation.run, replaceBy, KeyStore.setTitleKey, Bytes.ofList?_toList]
    rfl
  | setTitleKey_length h16 =>
    rw [Operation.run, replaceBy, KeyStore.setTitleKey, Bytes.ofList?_eq_none_iff.mpr h16]
    rfl
  | setUserTitleKey =>
    rw [Operation.run, replaceBy, KeyStore.setUserTitleKey, Bytes.ofList?_toList]
    rfl
  | setUserTitleKey_length h16 =>
    rw [Operation.run, replaceBy, KeyStore.setUserTitleKey, Bytes.ofList?_eq_none_iff.mpr h16]
    rfl
  | removeUserTitleKey => rfl
  | loadKeys h => exact countBy_loadKeys h s
  | loadTitleKeys h => exact countBy_loadTitleKeys h s
  | loadKeysFromStream h =>
    exact (streamsAs_loadKeys.countBy_encode _ s).trans (countBy_loadKeys h s)
  | loadKeysFromStream_notText h => exact streamsAs_loadKeys.countBy_notText h s
  | loadTitleKeysFromStream h =>
    exact (streamsAs_loadTitleKeys.countBy_encode _ s).trans (countBy_loadTitleKeys h s)
  | loadTitleKeysFromStream_notText h => exact streamsAs_loadTitleKeys.countBy_notText h s

/-- **Every operation does something.** -/
theorem Operation.exists_does (op : Operation) : ∃ answer writes, op.Does answer writes := by
  cases op with
  | setKey name value =>
    by_cases hname : name = ""
    · subst hname
      exact ⟨_, _, .setKey_noName⟩
    · cases hvalue : Key.ofBytes? value with
      | none =>
        obtain ⟨h16, h32⟩ := Key.ofBytes?_eq_none_iff.mp hvalue
        exact ⟨_, _, .setKey_length hname h16 h32⟩
      | some key =>
        rw [← Key.ofBytes?_eq_some_iff.mp hvalue]
        exact ⟨_, _, .setKey hname⟩
  | setTitleKey rightsId value =>
    by_cases h16 : value.length = 16
    · obtain ⟨key, rfl⟩ : ∃ key : Bytes 16, key.toList = value := ⟨⟨value, h16⟩, rfl⟩
      exact ⟨_, _, .setTitleKey⟩
    · exact ⟨_, _, .setTitleKey_length h16⟩
  | setUserTitleKey value =>
    by_cases h16 : value.length = 16
    · obtain ⟨key, rfl⟩ : ∃ key : Bytes 16, key.toList = value := ⟨⟨value, h16⟩, rfl⟩
      exact ⟨_, _, .setUserTitleKey⟩
    · exact ⟨_, _, .setUserTitleKey_length h16⟩
  | removeUserTitleKey => exact ⟨_, _, .removeUserTitleKey⟩
  | loadKeys text => exact ⟨_, _, .loadKeys ((Grammar.writes_iff KeyLine.named_readBy).mpr rfl)⟩
  | loadTitleKeys text =>
    exact ⟨_, _, .loadTitleKeys ((Grammar.writes_iff KeyLine.titled_readBy).mpr rfl)⟩
  | loadKeysFromStream bytes =>
    by_cases htext : ∃ text, bytes = Utf8.encode text
    · obtain ⟨text, rfl⟩ := htext
      exact ⟨_, _, .loadKeysFromStream ((Grammar.writes_iff KeyLine.named_readBy).mpr rfl)⟩
    · exact ⟨_, _, .loadKeysFromStream_notText (not_exists.mp htext)⟩
  | loadTitleKeysFromStream bytes =>
    by_cases htext : ∃ text, bytes = Utf8.encode text
    · obtain ⟨text, rfl⟩ := htext
      exact ⟨_, _, .loadTitleKeysFromStream ((Grammar.writes_iff KeyLine.titled_readBy).mpr rfl)⟩
    · exact ⟨_, _, .loadTitleKeysFromStream_notText (not_exists.mp htext)⟩

/-- An operation that fails makes no write. -/
theorem Operation.Does.writes_eq_nil {e : Error} (h : op.Does (.error e) writes) : writes = [] := by
  cases h <;> rfl

end Does

/-! ## What a store holds -/

/-- The tables of a store hold the last writes of a history. -/
structure Tables (s : KeyStore) (history : List Write) : Prop where
  keys : ∀ name, s.key? name = last? (Write.keyOf? name) history
  titleKeys : ∀ rightsId, s.titleKeys.find? rightsId = last? (Write.titleKeyOf? rightsId) history
  rightsIds : ∀ rightsId, rightsId ∈ s.titleKeys.keys ↔ rightsId ∈ history.filterMap Write.rightsId?
  user : s.userTitleKey = (last? Write.userKey? history).join

theorem tables_empty : empty.Tables [] where
  keys _ := rfl
  titleKeys _ := rfl
  rightsIds _ := Iff.rfl
  user := rfl

section Write

variable (s : KeyStore) (w : Write)

theorem key?_write (name : String) : (w.apply s).key? name = (w.keyOf? name).or (s.key? name) := by
  cases w with
  | named other key =>
    rw [key?, key?, Write.apply, Catalog.find?_insert, Write.keyOf?]
    by_cases hname : foldCase name = foldCase other
    · rw [if_pos hname, if_pos hname.symm]
      rfl
    · rw [if_neg hname, if_neg (Ne.symm hname)]
      rfl
  | titled | user | userRemoved => rfl

theorem find?_titleKeys_write (rightsId : Bytes 16) : (w.apply s).titleKeys.find? rightsId =
    (w.titleKeyOf? rightsId).or (s.titleKeys.find? rightsId) := by
  cases w with
  | titled other key =>
    rw [Write.apply, Catalog.find?_insert, Write.titleKeyOf?]
    by_cases hid : rightsId = other
    · rw [if_pos hid, if_pos hid.symm]
      rfl
    · rw [if_neg hid, if_neg (Ne.symm hid)]
      rfl
  | named | user | userRemoved => rfl

theorem mem_keys_titleKeys_write (rightsId : Bytes 16) : rightsId ∈ (w.apply s).titleKeys.keys ↔
    rightsId ∈ s.titleKeys.keys ∨ w.rightsId? = some rightsId := by
  cases w with
  | titled other key =>
    rw [Write.apply, Catalog.mem_keys_insert, Write.rightsId?, Option.some_inj, or_comm]
    exact or_congr_right eq_comm
  | named | user | userRemoved => exact (or_iff_left (Option.some_ne_none rightsId).symm).symm

theorem userTitleKey_write : (w.apply s).userTitleKey = w.userKey?.getD s.userTitleKey := by
  cases w <;> rfl

end Write

variable {s : KeyStore} {history : List Write}

/-- **One more write is remembered.** -/
theorem Tables.write (h : s.Tables history) (w : Write) : (w.apply s).Tables (history ++ [w]) where
  keys name := by rw [key?_write, last?_concat, h.keys]
  titleKeys rightsId := by rw [find?_titleKeys_write, last?_concat, h.titleKeys]
  rightsIds rightsId := by
    rw [mem_keys_titleKeys_write, h.rightsIds, List.filterMap_append, List.mem_append,
      List.mem_filterMap (l := [w])]
    simp only [List.mem_singleton, exists_eq_left]
  user := by
    rw [userTitleKey_write, last?_concat, h.user]
    cases w.userKey? <;> rfl

/-- Any number of writes is remembered. -/
theorem Tables.foldl_apply (h : s.Tables history) (ws : List Write) :
    (ws.foldl Write.apply s).Tables (history ++ ws) := by
  induction ws generalizing s history with
  | nil =>
    rw [List.append_nil]
    exact h
  | cons w rest ih =>
    rw [List.foldl_cons, List.append_cons]
    exact ih (h.write w)

/-! ## What is found -/

/-- Every look-up in a store tells the last write of a history that concerns it. -/
structure Recalls (s : KeyStore) (history : List Write) : Prop where
  /-- A name leads to the key that was registered last under it, in whatever case. -/
  key? : ∀ name, s.key? name = last? (Write.keyOf? name) history
  hasKey : ∀ name, s.hasKey name = (last? (Write.keyOf? name) history).isSome
  /-- A named key has sixteen or thirty-two bytes. -/
  length_bytes : ∀ name, ∀ key ∈ s.key? name, key.bytes.length = 16 ∨ key.bytes.length = 32
  /-- With sixteen it serves for single blocks. -/
  aesKey? : ∀ name (block : Block),
    s.aesKey? name = some block ↔ (s.key? name).map Key.bytes = some block.toList
  /-- The user's title key, unless it was removed since, or else the last one of the rights ID. -/
  titleKey? : ∀ rightsId, s.titleKey? rightsId =
    (last? Write.userKey? history).join.or (last? (Write.titleKeyOf? rightsId) history)
  /-- The rights IDs that were registered, each counted once. -/
  titleKeyCount : s.titleKeyCount = (history.filterMap Write.rightsId?).dedup.length

/-- Only a key of sixteen bytes has those of a block. -/
theorem map_bytes_eq_some_iff {key : Option Key} {block : Block} :
    key.map Key.bytes = some block.toList ↔ key = some (.single block) := by
  constructor
  · intro h
    obtain ⟨key, rfl, hbytes⟩ := Option.map_eq_some_iff.mp h
    cases key with
    | single b => rw [Bytes.ext hbytes]
    | double b =>
      have hlength := congrArg List.length hbytes
      rw [Key.bytes, b.length_toList, block.length_toList] at hlength
      omega
  · rintro rfl
    rfl

theorem Tables.recalls (h : s.Tables history) : s.Recalls history where
  key? := h.keys
  hasKey name := by
    rw [← h.keys]
    rfl
  length_bytes _ key _ := key.length_bytes
  aesKey? _ _ := aesKey?_eq_some_iff.trans map_bytes_eq_some_iff.symm
  titleKey? rightsId := by rw [KeyStore.titleKey?, h.user, h.titleKeys]
  titleKeyCount := by
    rw [KeyStore.titleKeyCount, Catalog.size_eq_length_keys]
    refine List.Perm.length_eq ((List.perm_ext_iff_of_nodup s.titleKeys.nodup_keys
      (List.nodup_dedup _)).mpr fun rightsId => ?_)
    rw [List.mem_dedup]
    exact h.rightsIds rightsId

/-- What operations do, one after the other: their answers, and the writes that each makes. -/
abbrev Recorded (ops : List Operation) (log : List (Answer × List Write)) : Prop :=
  List.Forall₂ (fun op entry => op.Does entry.1 entry.2) ops log

theorem exists_recorded (ops : List Operation) : ∃ log, Recorded ops log := by
  induction ops with
  | nil => exact ⟨[], .nil⟩
  | cons op rest ih =>
    obtain ⟨answer, ws, hdoes⟩ := op.exists_does
    obtain ⟨log, hlog⟩ := ih
    exact ⟨(answer, ws) :: log, .cons hdoes hlog⟩

/-- A run gives the recorded answers and makes the recorded writes. -/
theorem run_eq_of_recorded {ops : List Operation} {log : List (Answer × List Write)}
    (h : Recorded ops log) (s : KeyStore) :
    run ops s = (log.map Prod.fst, (log.flatMap Prod.snd).foldl Write.apply s) := by
  induction h generalizing s with
  | nil => rfl
  | cons hdoes _ ih =>
    rw [run, hdoes.run_eq, ih, List.map_cons, List.flatMap_cons, List.foldl_append]

/-- An operation that fails leaves the store as it was. -/
theorem Operation.run_of_error {op : Operation} {s : KeyStore} {e : Error}
    (h : (op.run s).1 = .error e) : (op.run s).2 = s := by
  obtain ⟨answer, ws, hdoes⟩ := op.exists_does
  rw [hdoes.run_eq] at h ⊢
  obtain rfl : answer = .error e := h
  rw [hdoes.writes_eq_nil]
  rfl

/-- **After any operations on an empty store, every look-up tells the last write that concerns it**, and
an operation that fails changes nothing. -/
theorem run_recalls (ops : List Operation) :
    (∃ log, Recorded ops log) ∧
      (∀ log, Recorded ops log → (run ops empty).1 = log.map Prod.fst ∧
        (run ops empty).2.Recalls (log.flatMap Prod.snd)) ∧
      ∀ (op : Operation) (s : KeyStore) (e : Error), (op.run s).1 = .error e → (op.run s).2 = s := by
  refine ⟨exists_recorded ops, fun log hlog => ?_, fun op s e => Operation.run_of_error⟩
  rw [run_eq_of_recorded hlog]
  exact ⟨rfl, (tables_empty.foldl_apply _).recalls⟩

end KeyStore

end Cartridge
