import Cartridge.Text.Utf8
import Mathlib.Tactic.SplitIfs

/-!
# Reading and writing UTF-8

Every text has one written form in UTF-8, and reading accepts that form and no other. The reader
looks at one byte after the other with the bounds of the next byte at hand, so the argument goes
along its steps: what a first byte begins (`lead?_cases`), what one more byte does (`scan_pending`),
and what a whole character does (`scan_encodeChar`, `scan_cons_eq_ok`).

Results:
* `toByteArray_encode`: the written form is the one in which texts are kept.
* `decode_eq_ok_iff`: a byte string reads as a text exactly if it is the text's written form.
-/

namespace Cartridge.Utf8

/-! ## Characters as numbers -/

theorem toNat_cases (c : Char) :
    c.toNat < 0xD800 ∨ 0xDFFF < c.toNat ∧ c.toNat < 0x110000 := c.valid

theorem toNat_ofNat {n : Nat} (h : n < 0xD800 ∨ 0xDFFF < n ∧ n < 0x110000) :
    (Char.ofNat n).toNat = n := by
  have hvalid : n.isValidChar := h
  unfold Char.ofNat
  rw [dif_pos hvalid]
  rfl

theorem toNat_byte {n : Nat} (h : n < 0x100) : (UInt8.ofNat n).toNat = n := by
  rw [UInt8.toNat_ofNat']
  omega

theorem byte_eq {b : UInt8} {n : Nat} (h : n = b.toNat) : UInt8.ofNat n = b := by
  rw [h, UInt8.ofNat_toNat]

/-! ## The written form -/

theorem encodeChar_eq (c : Char) : encodeChar c = String.utf8EncodeChar c := by
  have hvalid := toNat_cases c
  have hval : c.val.toNat = c.toNat := rfl
  unfold encodeChar String.utf8EncodeChar
  rw [hval]
  generalize c.toNat = n at hvalid
  simp only [← Nat.lt_succ_iff]
  split_ifs
  · rfl
  · rw [show 0xC0 + n / 64 = n / 64 % 32 + 192 by omega, Nat.add_comm 0x80]
  · rw [show 0xE0 + n / 4096 = n / 4096 % 16 + 224 by omega, Nat.add_comm 0x80,
      Nat.add_comm 0x80]
  · rw [show 0xF0 + n / 262144 = n / 262144 % 8 + 240 by omega, Nat.add_comm 0x80,
      Nat.add_comm 0x80, Nat.add_comm 0x80]

/-- The written form of a text is the one in which it is kept. -/
theorem toByteArray_encode (text : String) : (encode text).toByteArray = text.toByteArray := by
  rw [← String.utf8Encode_toList, List.utf8Encode, encode, funext encodeChar_eq]

/-! ## Steps of the reader -/

/-- What a first byte begins that announces one more. -/
theorem lead?_two {b : Nat} (h : 0xC2 ≤ b ∧ b ≤ 0xDF) :
    lead? b = some ⟨1, 0x80, 0xBF, b - 0xC0, 1⟩ := by
  unfold lead?
  rw [if_pos h]

/-- What a first byte begins that announces two more; the second byte must not make the form
overlong or the character a surrogate. -/
theorem lead?_three {b : Nat} (h : 0xE0 ≤ b ∧ b ≤ 0xEF) :
    lead? b = some ⟨2, if b = 0xE0 then 0xA0 else 0x80, if b = 0xED then 0x9F else 0xBF,
      b - 0xE0, 1⟩ := by
  unfold lead?
  split_ifs <;> first | omega | simp <;> omega

/-- What a first byte begins that announces three more; the second byte must not make the form
overlong or the number too great. -/
theorem lead?_four {b : Nat} (h : 0xF0 ≤ b ∧ b ≤ 0xF4) :
    lead? b = some ⟨3, if b = 0xF0 then 0x90 else 0x80, if b = 0xF4 then 0x8F else 0xBF,
      b - 0xF0, 1⟩ := by
  unfold lead?
  split_ifs <;> first | omega | simp <;> omega

theorem lead?_cases {b : Nat} {p : Pending} (h : lead? b = some p) :
    (0xC2 ≤ b ∧ b ≤ 0xDF) ∨ (0xE0 ≤ b ∧ b ≤ 0xEF) ∨ (0xF0 ≤ b ∧ b ≤ 0xF4) := by
  unfold lead? at h
  split_ifs at h <;> omega

variable {start : Nat} {p : Pending} {b : UInt8} {bytes rest : List UInt8} {chars : List Char}

theorem scan_ascii (h : b.toNat < 0x80) :
    scan start none (b :: rest) = (scan (start + 1) none rest).map (Char.ofNat b.toNat :: ·) := by
  rw [scan, if_pos h]

theorem scan_lead (hb : 0x80 ≤ b.toNat) (h : lead? b.toNat = some p) :
    scan start none (b :: rest) = scan start (some p) rest := by
  rw [scan, if_neg (by omega), h]

/-- One more byte of a sequence, which is not the last one. -/
theorem scan_more (hb : p.low ≤ b.toNat ∧ b.toNat ≤ p.high) (howed : 1 < p.owed) :
    scan start (some p) (b :: rest) = scan start
      (some ⟨p.owed - 1, 0x80, 0xBF, 64 * p.bits + (b.toNat - 0x80), p.read + 1⟩) rest := by
  rw [scan, if_pos hb, if_neg (by omega)]

/-- The last byte of a sequence. -/
theorem scan_last (hb : p.low ≤ b.toNat ∧ b.toNat ≤ p.high) (howed : p.owed ≤ 1) :
    scan start (some p) (b :: rest) = (scan (start + p.read + 1) none rest).map
      (Char.ofNat (64 * p.bits + (b.toNat - 0x80)) :: ·) := by
  rw [scan, if_pos hb, if_pos howed]

/-- A sequence goes on with a byte within its bounds. -/
theorem scan_pending_eq_ok (h : scan start (some p) bytes = .ok chars) :
    ∃ b rest, bytes = b :: rest ∧ p.low ≤ b.toNat ∧ b.toNat ≤ p.high := by
  cases bytes with
  | nil => cases h
  | cons b rest =>
    rw [scan] at h
    split at h
    · rename_i hb
      exact ⟨b, rest, rfl, hb⟩
    · cases h

/-! ## Whole characters -/

/-- The written form of a character reads as the character. -/
theorem scan_encodeChar (c : Char) (start : Nat) (rest : List UInt8) :
    ∃ next, scan start none (encodeChar c ++ rest) = (scan next none rest).map (c :: ·) := by
  have hvalid := toNat_cases c
  have hc := Char.ofNat_toNat c
  unfold encodeChar
  generalize c.toNat = n at hvalid hc
  subst hc
  dsimp only
  split_ifs with h1 h2 h3
  · have hb := toNat_byte (n := n) (by omega)
    refine ⟨start + 1, ?_⟩
    rw [List.singleton_append, scan_ascii (by omega), hb]
  · have hb₀ := toNat_byte (n := 0xC0 + n / 64) (by omega)
    have hb₁ := toNat_byte (n := 0x80 + n % 64) (by omega)
    refine ⟨start + 1 + 1, ?_⟩
    simp only [List.cons_append, List.nil_append]
    rw [scan_lead (by omega) (lead?_two (by omega)),
      scan_last (by dsimp only; omega) (by dsimp only; omega)]
    dsimp only
    rw [show 64 * ((UInt8.ofNat (0xC0 + n / 64)).toNat - 0xC0)
      + ((UInt8.ofNat (0x80 + n % 64)).toNat - 0x80) = n by omega]
  · have hb₀ := toNat_byte (n := 0xE0 + n / 4096) (by omega)
    have hb₁ := toNat_byte (n := 0x80 + n / 64 % 64) (by omega)
    have hb₂ := toNat_byte (n := 0x80 + n % 64) (by omega)
    refine ⟨start + 2 + 1, ?_⟩
    simp only [List.cons_append, List.nil_append]
    rw [scan_lead (by omega) (lead?_three (by omega)),
      scan_more (by dsimp only; split_ifs <;> omega) (by dsimp only; omega),
      scan_last (by dsimp only; omega) (by dsimp only; omega)]
    dsimp only
    rw [show 64 * (64 * ((UInt8.ofNat (0xE0 + n / 4096)).toNat - 0xE0)
      + ((UInt8.ofNat (0x80 + n / 64 % 64)).toNat - 0x80))
      + ((UInt8.ofNat (0x80 + n % 64)).toNat - 0x80) = n by omega]
  · have hb₀ := toNat_byte (n := 0xF0 + n / 262144) (by omega)
    have hb₁ := toNat_byte (n := 0x80 + n / 4096 % 64) (by omega)
    have hb₂ := toNat_byte (n := 0x80 + n / 64 % 64) (by omega)
    have hb₃ := toNat_byte (n := 0x80 + n % 64) (by omega)
    refine ⟨start + 3 + 1, ?_⟩
    simp only [List.cons_append, List.nil_append]
    rw [scan_lead (by omega) (lead?_four (by omega)),
      scan_more (by dsimp only; split_ifs <;> omega) (by dsimp only; omega),
      scan_more (by dsimp only; omega) (by dsimp only; omega),
      scan_last (by dsimp only; omega) (by dsimp only; omega)]
    dsimp only
    rw [show 64 * (64 * (64 * ((UInt8.ofNat (0xF0 + n / 262144)).toNat - 0xF0)
      + ((UInt8.ofNat (0x80 + n / 4096 % 64)).toNat - 0x80))
      + ((UInt8.ofNat (0x80 + n / 64 % 64)).toNat - 0x80))
      + ((UInt8.ofNat (0x80 + n % 64)).toNat - 0x80) = n by omega]

theorem map_eq_ok {α β : Type} {f : α → β} {x : Except Fault α} {y : β} (h : x.map f = .ok y) :
    ∃ a, x = .ok a ∧ f a = y := by
  cases x with
  | error e => cases h
  | ok a => exact ⟨a, rfl, Except.ok.inj h⟩

/-- Where reading succeeds, the written form of a character comes first. -/
theorem scan_cons_eq_ok (h : scan start none (b :: bytes) = .ok chars) :
    ∃ c next rest chars', b :: bytes = encodeChar c ++ rest ∧ chars = c :: chars' ∧
      scan next none rest = .ok chars' := by
  have hb := b.toNat_lt
  by_cases hascii : b.toNat < 0x80
  · rw [scan_ascii hascii] at h
    obtain ⟨chars', hrest, rfl⟩ := map_eq_ok h
    refine ⟨_, _, bytes, chars', ?_, rfl, hrest⟩
    unfold encodeChar
    rw [toNat_ofNat (by omega), if_pos hascii, UInt8.ofNat_toNat]
    rfl
  · have hsome : ∃ p, lead? b.toNat = some p := by
      rw [scan, if_neg hascii] at h
      cases hlead : lead? b.toNat with
      | none =>
        rw [hlead] at h
        cases h
      | some p => exact ⟨p, rfl⟩
    obtain ⟨p, hlead⟩ := hsome
    rw [scan_lead (by omega) hlead] at h
    rcases lead?_cases hlead with htwo | hthree | hfour
    · rw [lead?_two htwo] at hlead
      cases hlead
      obtain ⟨b₁, rest, rfl, hlow, hhigh⟩ := scan_pending_eq_ok h
      rw [scan_last ⟨hlow, hhigh⟩ (by dsimp only; omega)] at h
      obtain ⟨chars', hrest, rfl⟩ := map_eq_ok h
      dsimp only at hlow hhigh
      refine ⟨_, _, rest, chars', ?_, rfl, hrest⟩
      dsimp only
      unfold encodeChar
      rw [toNat_ofNat (by omega)]
      dsimp only
      rw [if_neg (by omega), if_pos (by omega), byte_eq (b := b) (by omega),
        byte_eq (b := b₁) (by omega)]
      rfl
    · rw [lead?_three hthree] at hlead
      cases hlead
      obtain ⟨b₁, rest₁, rfl, hlow₁, hhigh₁⟩ := scan_pending_eq_ok h
      rw [scan_more ⟨hlow₁, hhigh₁⟩ (by dsimp only; omega)] at h
      obtain ⟨b₂, rest, rfl, hlow₂, hhigh₂⟩ := scan_pending_eq_ok h
      rw [scan_last ⟨hlow₂, hhigh₂⟩ (by dsimp only; omega)] at h
      obtain ⟨chars', hrest, rfl⟩ := map_eq_ok h
      dsimp only at hlow₁ hhigh₁ hlow₂ hhigh₂
      refine ⟨_, _, rest, chars', ?_, rfl, hrest⟩
      dsimp only
      unfold encodeChar
      split_ifs at hlow₁ hhigh₁ <;>
      · rw [toNat_ofNat (by omega)]
        dsimp only
        rw [if_neg (by omega), if_neg (by omega), if_pos (by omega), byte_eq (b := b) (by omega),
          byte_eq (b := b₁) (by omega), byte_eq (b := b₂) (by omega)]
        rfl
    · rw [lead?_four hfour] at hlead
      cases hlead
      obtain ⟨b₁, rest₁, rfl, hlow₁, hhigh₁⟩ := scan_pending_eq_ok h
      rw [scan_more ⟨hlow₁, hhigh₁⟩ (by dsimp only; omega)] at h
      obtain ⟨b₂, rest₂, rfl, hlow₂, hhigh₂⟩ := scan_pending_eq_ok h
      rw [scan_more ⟨hlow₂, hhigh₂⟩ (by dsimp only; omega)] at h
      obtain ⟨b₃, rest, rfl, hlow₃, hhigh₃⟩ := scan_pending_eq_ok h
      rw [scan_last ⟨hlow₃, hhigh₃⟩ (by dsimp only; omega)] at h
      obtain ⟨chars', hrest, rfl⟩ := map_eq_ok h
      dsimp only at hlow₁ hhigh₁ hlow₂ hhigh₂ hlow₃ hhigh₃
      refine ⟨_, _, rest, chars', ?_, rfl, hrest⟩
      dsimp only
      unfold encodeChar
      split_ifs at hlow₁ hhigh₁ <;>
      · rw [toNat_ofNat (by omega)]
        dsimp only
        rw [if_neg (by omega), if_neg (by omega), if_neg (by omega), byte_eq (b := b) (by omega),
          byte_eq (b := b₁) (by omega), byte_eq (b := b₂) (by omega), byte_eq (b := b₃) (by omega)]
        rfl

/-! ## Texts -/

theorem scan_flatMap_encodeChar (chars : List Char) (start : Nat) :
    scan start none (chars.flatMap encodeChar) = .ok chars := by
  induction chars generalizing start with
  | nil => rw [List.flatMap_nil, scan]
  | cons c rest ih =>
    obtain ⟨next, h⟩ := scan_encodeChar c start (rest.flatMap encodeChar)
    rw [List.flatMap_cons, h, ih]
    rfl

theorem eq_flatMap_of_scan (h : scan start none bytes = .ok chars) :
    bytes = chars.flatMap encodeChar := by
  induction chars generalizing start bytes with
  | nil =>
    cases bytes with
    | nil => rfl
    | cons b bytes =>
      obtain ⟨_, _, _, _, -, hchars, -⟩ := scan_cons_eq_ok h
      cases hchars
  | cons c chars ih =>
    cases bytes with
    | nil => cases h
    | cons b bytes =>
      obtain ⟨c', next, rest, chars', hbytes, hchars, hrest⟩ := scan_cons_eq_ok h
      cases hchars
      rw [hbytes, List.flatMap_cons, ih hrest]

theorem decodeChars_eq_ok_iff : decodeChars bytes = .ok chars ↔ bytes = chars.flatMap encodeChar := by
  constructor
  · exact eq_flatMap_of_scan
  · rintro rfl
    exact scan_flatMap_encodeChar chars 0

/-- **A byte string reads as a text exactly if it is the text's written form.** -/
theorem decode_eq_ok_iff {text : String} : decode bytes = .ok text ↔ bytes = encode text := by
  unfold decode encode
  rw [← decodeChars_eq_ok_iff]
  constructor
  · intro h
    obtain ⟨chars, hchars, rfl⟩ := map_eq_ok h
    rw [String.toList_ofList]
    exact hchars
  · intro h
    rw [h]
    exact congrArg Except.ok String.ofList_toList

end Cartridge.Utf8
