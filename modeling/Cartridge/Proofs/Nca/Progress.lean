import Cartridge.Proofs.Nca.SectionViews
import Cartridge.Proofs.Nca.Steps
import Mathlib.Logic.Relation

/-!
# The progress of a content archive

The media and the keys may change between calls in any way: a read that failed may succeed, and a
key that was there may be gone. What is known does not change with them, since no step looks again
at what an earlier one found. There is one exception, the descriptors of an archive whose sections
are open. These have been dropped and are made anew from the headers, so that they are the same has
to be carried along (`Archive.Consistent`).

Results:
* `Archive.keeps_of_advance`: a step keeps what is known.
* `Archive.keeps_onSection`: so does operating on a section's filesystem.
* `Archive.keeps_of_reaches`: so does a run.
* `Archive.Reaches.progress`: what holds of every run.
-/

namespace Cartridge.Nca

namespace Archive

variable {α : Type} {media : Media} {keys : KeyStore} {a b : Archive}

/-! ## What is known stays -/

/-- What an archive knows of its sections is what its headers say of them. -/
def Consistent (a : Archive) : Prop :=
  match a.stage with
  | .unparsed | .headerDecrypted _ => True
  | .sectionsResolved h ds => h.describe a.view.size = .ok ds
  | .parsed h sections => ∃ ds, h.describe a.view.size = .ok ds ∧
      sections.map Section.descriptor = ds.filter Descriptor.isSupported ∧
      ∀ s ∈ sections, s.filesystem.kind = s.descriptor.kind

/-- The descriptors of the sections, once they have been described. -/
def descriptors? (a : Archive) : Option (List Descriptor) :=
  match a.stage with
  | .unparsed | .headerDecrypted _ => none
  | .sectionsResolved _ ds => some ds
  | .parsed h _ => (h.describe a.view.size).toOption

/-- What is fixed of the opened sections, once they have been opened. -/
def outlines? (a : Archive) : Option (List (Descriptor × View × SectionKind)) :=
  match a.stage with
  | .parsed _ sections => some (sections.map Section.outline)
  | _ => none

/-- One archive is behind another and knows what the other knew. -/
structure Keeps (a b : Archive) : Prop where
  view_eq : b.view = a.view
  rank_le : a.state.rank ≤ b.state.rank
  headers : ∀ h, a.headers? = some h → b.headers? = some h
  descriptors : ∀ ds, a.descriptors? = some ds → b.descriptors? = some ds
  outlines : ∀ os, a.outlines? = some os → b.outlines? = some os

theorem Keeps.refl (a : Archive) : Keeps a a :=
  ⟨rfl, Nat.le_refl _, fun _ h => h, fun _ h => h, fun _ h => h⟩

theorem Keeps.trans {c : Archive} (hab : Keeps a b) (hbc : Keeps b c) : Keeps a c where
  view_eq := hbc.view_eq.trans hab.view_eq
  rank_le := Nat.le_trans hab.rank_le hbc.rank_le
  headers h hh := hbc.headers h (hab.headers h hh)
  descriptors ds hds := hbc.descriptors ds (hab.descriptors ds hds)
  outlines os hos := hbc.outlines os (hab.outlines os hos)

/-- A step keeps what is known. -/
theorem keeps_of_advance (ha : a.Consistent) (h : a.advance media keys = .ok b) :
    b.Consistent ∧ Keeps a b := by
  have hrank : a.state.rank ≤ b.state.rank := by
    have hb := rank_of_advance h
    have hle : a.state.rank ≤ 3 := by cases a.state <;> decide
    omega
  obtain ⟨view, stage⟩ := a
  cases stage with
  | unparsed =>
    obtain ⟨h', -, hb⟩ := bind_eq_ok_iff.mp h
    cases hb
    exact ⟨trivial, rfl, hrank, (fun _ hh => nomatch hh), (fun _ hh => nomatch hh),
      (fun _ hh => nomatch hh)⟩
  | headerDecrypted h' =>
    obtain ⟨ds, hds, hb⟩ := bind_eq_ok_iff.mp h
    cases hb
    exact ⟨hds, rfl, hrank, fun _ hh => hh, (fun _ hh => nomatch hh), (fun _ hh => nomatch hh)⟩
  | sectionsResolved h' ds =>
    obtain ⟨sections, hsections, hb⟩ := bind_eq_ok_iff.mp h
    cases hb
    have hds : h'.describe view.size = .ok ds := ha
    obtain ⟨hmap, hopened⟩ := openSections_ok KeyRing.agrees_empty (Prod.ext hsections rfl)
    refine ⟨⟨ds, hds, hmap, fun s hs => (hopened s hs).kind_eq⟩, rfl, hrank, fun _ hh => hh,
      fun ds' hh => ?_, (fun _ hh => nomatch hh)⟩
    show (h'.describe view.size).toOption = some ds'
    rw [hds]
    exact hh
  | parsed h' sections =>
    cases h
    exact ⟨ha, Keeps.refl _⟩

theorem keeps_climb (n : Nat) (ha : a.Consistent) :
    (climb media keys n a).2.Consistent ∧ Keeps a (climb media keys n a).2 := by
  apply climb_preserves (P := fun b => b.Consistent ∧ Keeps a b)
  · rintro b c ⟨hb, hab⟩ hbc
    obtain ⟨hc, hkeeps⟩ := keeps_of_advance hb hbc
    exact ⟨hc, hab.trans hkeeps⟩
  · exact ⟨ha, Keeps.refl a⟩

theorem keeps_reach (media : Media) (keys : KeyStore) (goal : State) (ha : a.Consistent) :
    (reach media keys goal a).2.Consistent ∧ Keeps a (reach media keys goal a).2 :=
  keeps_climb _ ha

/-! ## Filesystems of sections -/

theorem outcome_sectionAt_ok {index : Nat} {s : Section}
    (h : (sectionAt media keys index).outcome a = (.ok s, b)) :
    ∃ h sections, b.stage = .parsed h sections ∧ s ∈ sections ∧ s.descriptor.index = index := by
  unfold sectionAt at h
  obtain ⟨all, b₁, hall, h⟩ := Access.outcome_bind_eq_ok_iff.mp h
  split at h
  · rename_i s' hfind
    cases h
    unfold sections at hall
    obtain ⟨-, b₂, -, hall⟩ := Access.outcome_bind_eq_ok_iff.mp hall
    obtain ⟨view, stage⟩ := b₂
    cases stage with
    | parsed h ss =>
      cases hall
      have hindex := List.find?_some hfind
      exact ⟨_, _, rfl, List.mem_of_find?_eq_some hfind, by simpa using hindex⟩
    | unparsed =>
      cases hall
      cases hfind
    | headerDecrypted h =>
      cases hall
      cases hfind
    | sectionsResolved h ds =>
      cases hall
      cases hfind
  · cases h

/-- A filesystem of the same kind changes nothing that is fixed. -/
theorem keeps_setFilesystem {h : Headers} {sections : List Section} {s : Section}
    {filesystem : SectionFilesystem} (ha : a.Consistent) (hstage : a.stage = .parsed h sections)
    (hs : s ∈ sections) (hkind : filesystem.kind = s.filesystem.kind) :
    ((setFilesystem s.descriptor.index filesystem).outcome a).2.Consistent ∧
      Keeps a ((setFilesystem s.descriptor.index filesystem).outcome a).2 ∧
      ((setFilesystem s.descriptor.index filesystem).outcome a).2.state = a.state := by
  obtain ⟨view, stage⟩ := a
  cases hstage
  obtain ⟨ds, hds, hmap, hall⟩ := ha
  have hdescribed (t : Section) (ht : t ∈ sections) : t.descriptor ∈ ds := by
    have hmem := List.mem_map_of_mem (f := Section.descriptor) ht
    rw [hmap] at hmem
    exact (List.mem_filter.mp hmem).1
  have houtline (t : Section) (ht : t ∈ sections) :
      Section.outline (if t.descriptor.index = s.descriptor.index
        then { t with filesystem := filesystem } else t) = t.outline := by
    split
    · rename_i hindex
      have hsame := Headers.eq_of_index_eq hds (hdescribed t ht) (hdescribed s hs) hindex
      have hk : filesystem.kind = t.filesystem.kind := by
        rw [hkind, hall s hs, ← hsame, hall t ht]
      unfold Section.outline
      rw [← hk]
    · rfl
  refine ⟨⟨ds, hds, ?_, ?_⟩, ⟨rfl, Nat.le_refl _, fun _ hh => hh, fun _ hh => hh, ?_⟩, rfl⟩
  · rw [← hmap, List.map_map]
    exact List.map_congr_left fun t ht => congrArg Prod.fst (houtline t ht)
  · intro t ht
    obtain ⟨u, hu, rfl⟩ := List.mem_map.mp ht
    have hdescriptor := congrArg Prod.fst (houtline u hu)
    have hkind := congrArg (fun o => o.2.2) (houtline u hu)
    exact hkind.trans ((hall u hu).trans (congrArg Descriptor.kind hdescriptor).symm)
  · intro os hos
    have houtlines : (sections.map fun t => if t.descriptor.index = s.descriptor.index
        then { t with filesystem := filesystem } else t).map Section.outline
          = sections.map Section.outline := by
      rw [List.map_map]
      exact List.map_congr_left houtline
    exact (congrArg some houtlines).trans hos

/-- Operating on a section's filesystem climbs to where the sections are opened, and then changes
nothing that is fixed. -/
theorem keeps_onSection {index : Nat} {operation : Access SectionFilesystem α}
    (hkind : ∀ filesystem, (operation filesystem).2.kind = filesystem.kind) (ha : a.Consistent) :
    ((onSection media keys index operation).outcome a).2.Consistent ∧
      Keeps (reach media keys .parsed a).2 ((onSection media keys index operation).outcome a).2 ∧
      ((onSection media keys index operation).outcome a).2.state
        = (reach media keys .parsed a).2.state := by
  have hreach := (keeps_reach media keys .parsed ha).1
  rw [← (climbsTo_sectionAt index).state_eq] at hreach ⊢
  unfold onSection
  rw [Access.outcome_bind]
  generalize hrun : (sectionAt media keys index).outcome a = r at hreach ⊢
  obtain ⟨_ | s, b⟩ := r
  · exact ⟨hreach, Keeps.refl b, rfl⟩
  · obtain ⟨h, sections, hstage, hs, rfl⟩ := outcome_sectionAt_ok hrun
    have hset := keeps_setFilesystem hreach hstage hs (hkind s.filesystem)
    rw [← Access.state_bind_liftM _ (operation s.filesystem).1] at hset
    exact hset

/-! ## Answers -/

theorem outcome_headers_of_headers? {h : Headers} (ha : a.headers? = some h) (media : Media)
    (keys : KeyStore) : (headers media keys).outcome a = (.ok h, a) := by
  obtain ⟨view, stage⟩ := a
  cases stage with
  | unparsed => cases ha
  | headerDecrypted h' =>
    cases ha
    rfl
  | sectionsResolved h' ds =>
    cases ha
    rfl
  | parsed h' sections =>
    cases ha
    rfl

theorem outcome_descriptors_of_descriptors? {ds : List Descriptor}
    (ha : a.descriptors? = some ds) (media : Media) (keys : KeyStore) :
    (descriptors media keys).outcome a = (.ok ds, a) := by
  obtain ⟨view, stage⟩ := a
  cases stage with
  | unparsed => cases ha
  | headerDecrypted h => cases ha
  | sectionsResolved h ds' =>
    cases ha
    rfl
  | parsed h sections =>
    -- the descriptors are made anew from the headers
    have hds : h.describe view.size = .ok ds := by
      unfold descriptors? at ha
      dsimp only at ha
      cases hd : h.describe view.size with
      | error e =>
        rw [hd] at ha
        cases ha
      | ok ds' =>
        rw [hd] at ha
        cases ha
        rfl
    show ((h.describe view.size), (⟨view, .parsed h sections⟩ : Archive)) = _
    rw [hds]

theorem exists_headers? (ha : a.state ≠ .unparsed) : ∃ h, a.headers? = some h := by
  obtain ⟨view, stage⟩ := a
  cases stage with
  | unparsed => exact absurd rfl ha
  | headerDecrypted h => exact ⟨h, rfl⟩
  | sectionsResolved h ds => exact ⟨h, rfl⟩
  | parsed h sections => exact ⟨h, rfl⟩

theorem exists_stage_of_parsed (ha : a.state = .parsed) :
    ∃ h sections, a.stage = .parsed h sections := by
  obtain ⟨view, stage⟩ := a
  cases stage with
  | parsed h sections => exact ⟨h, sections, rfl⟩
  | unparsed => cases ha
  | headerDecrypted h => cases ha
  | sectionsResolved h ds => cases ha

theorem Consistent.exists_descriptors? (ha : a.Consistent)
    (hrank : State.sectionsResolved.rank ≤ a.state.rank) : ∃ ds, a.descriptors? = some ds := by
  obtain ⟨view, stage⟩ := a
  cases stage with
  | unparsed => exact absurd hrank (show ¬ 2 ≤ 0 by decide)
  | headerDecrypted h => exact absurd hrank (show ¬ 2 ≤ 1 by decide)
  | sectionsResolved h ds => exact ⟨ds, rfl⟩
  | parsed h sections =>
    obtain ⟨ds, hds, -⟩ := ha
    exact ⟨ds, congrArg Except.toOption hds⟩

theorem Consistent.parsed {h : Headers} {sections : List Section} (ha : a.Consistent)
    (hstage : a.stage = .parsed h sections) : ∃ ds, a.descriptors? = some ds ∧
      h.describe a.view.size = .ok ds ∧
      sections.map Section.descriptor = ds.filter Descriptor.isSupported ∧
      ∀ s ∈ sections, s.filesystem.kind = s.descriptor.kind := by
  obtain ⟨view, stage⟩ := a
  cases hstage
  obtain ⟨ds, hds, hmap, hkind⟩ := ha
  exact ⟨ds, congrArg Except.toOption hds, hds, hmap, hkind⟩

theorem outlines?_eq_some_iff {outlines : List (Descriptor × View × SectionKind)} :
    a.outlines? = some outlines ↔
      ∃ h sections, a.stage = .parsed h sections ∧ sections.map Section.outline = outlines := by
  obtain ⟨view, stage⟩ := a
  cases stage <;> simp [outlines?]

/-- Whoever keeps what an opened archive knows is opened, with the same headers and the same of
each section. -/
theorem Keeps.parsed {h : Headers} {sections : List Section} (hab : Keeps a b)
    (hstage : a.stage = .parsed h sections) :
    ∃ sections', b.stage = .parsed h sections' ∧
      sections'.map Section.outline = sections.map Section.outline := by
  obtain ⟨h', sections', hstage', houtline⟩ := outlines?_eq_some_iff.mp
    (hab.outlines _ (outlines?_eq_some_iff.mpr ⟨h, sections, hstage, rfl⟩))
  have hh := hab.headers h (by unfold headers?; rw [hstage])
  unfold headers? at hh
  rw [hstage'] at hh
  cases hh
  exact ⟨sections', hstage', houtline⟩

/-! ## Runs -/

/-- What can happen to an archive while the media and the keys are the given ones: a call, or an
operation on a section's filesystem, which stays of its kind. -/
inductive Step (media : Media) (keys : KeyStore) : Archive → Archive → Prop where
  | call {α : Type} (c : Call α) (a : Archive) : Step media keys a ((c.run media keys).outcome a).2
  | operate {α : Type} (index : Nat) (operation : Access SectionFilesystem α)
    (hkind : ∀ filesystem, (operation filesystem).2.kind = filesystem.kind) (a : Archive) :
    Step media keys a ((onSection media keys index operation).outcome a).2

/-- What can become of an archive while the media and the keys change in any way between steps. -/
def Reaches : Archive → Archive → Prop :=
  Relation.ReflTransGen fun a b => ∃ media keys, Step media keys a b

/-- A step is a climb that is followed by nothing but changes to what is not fixed. -/
theorem Step.exists_reach (h : Step media keys a b) (ha : a.Consistent) :
    ∃ goal, b.Consistent ∧ Keeps (reach media keys goal a).2 b ∧
      b.state = (reach media keys goal a).2.state := by
  cases h with
  | call c a =>
    have hc := (keeps_reach media keys c.goal ha).1
    rw [← (outcome_call media keys c a).1] at hc
    refine ⟨c.goal, hc, ?_⟩
    rw [(outcome_call media keys c a).1]
    exact ⟨Keeps.refl _, rfl⟩
  | operate index operation hkind a => exact ⟨.parsed, keeps_onSection hkind ha⟩

theorem Step.keeps (h : Step media keys a b) (ha : a.Consistent) : b.Consistent ∧ Keeps a b := by
  obtain ⟨goal, hb, hkeeps, -⟩ := h.exists_reach ha
  exact ⟨hb, (keeps_reach media keys goal ha).2.trans hkeeps⟩

theorem keeps_of_reaches (h : Reaches a b) (ha : a.Consistent) : b.Consistent ∧ Keeps a b := by
  induction h with
  | refl => exact ⟨ha, Keeps.refl a⟩
  | tail _ hstep ih =>
    obtain ⟨hb, hab⟩ := ih
    obtain ⟨media, keys, hstep⟩ := hstep
    obtain ⟨hc, hbc⟩ := hstep.keeps hb
    exact ⟨hc, hab.trans hbc⟩

theorem Reaches.consistent {view : View} (h : Reaches (ofView view) a) : a.Consistent :=
  (keeps_of_reaches h trivial).1

/-- **An archive only goes forward.** In every run, whatever the media hold and the keys are at each
step, and whichever reads fail:

* the state never decreases;
* the headers, once decrypted, and the descriptors, once made, are answered from then on;
* an opened section keeps its descriptor, its view and the kind of its filesystem;
* the opened sections are those whose encryption can be read, in the order of their numbers, each
  with the kind of filesystem that was declared;
* a call moves the archive to its goal or, if a step on the way fails, to where that step fails, and
  then answers with the step's error. -/
theorem Reaches.progress {view : View} (ha : Reaches (ofView view) a) (hab : Reaches a b) :
    a.state.rank ≤ b.state.rank ∧
    (a.state ≠ .unparsed → ∃ h, ∀ media keys,
      (headers media keys).outcome a = (.ok h, a) ∧ (headers media keys).outcome b = (.ok h, b)) ∧
    (State.sectionsResolved.rank ≤ a.state.rank → ∃ ds, ∀ media keys,
      (descriptors media keys).outcome a = (.ok ds, a) ∧
      (descriptors media keys).outcome b = (.ok ds, b)) ∧
    (∀ h sections, a.stage = .parsed h sections → ∃ sections', b.stage = .parsed h sections' ∧
      sections'.map Section.outline = sections.map Section.outline) ∧
    (∀ h sections, b.stage = .parsed h sections → ∃ ds,
      (∀ media keys, (descriptors media keys).outcome b = (.ok ds, b)) ∧
      ds.Pairwise (fun d e => d.index < e.index) ∧
      sections.map Section.descriptor = ds.filter Descriptor.isSupported ∧
      ∀ s ∈ sections, s.filesystem.kind = s.descriptor.kind) ∧
    (∀ {α : Type} (media : Media) (keys : KeyStore) (c : Call α),
      match reach media keys c.goal b with
      | (.ok _, b') => ((c.run media keys).outcome b).2 = b' ∧ c.goal.rank ≤ b'.state.rank
      | (.error e, b') => (c.run media keys).outcome b = (c.refusal e, b') ∧
          b'.advance media keys = .error e) := by
  have hca := ha.consistent
  obtain ⟨hcb, hkeeps⟩ := keeps_of_reaches hab hca
  refine ⟨hkeeps.rank_le, ?_, ?_, fun h sections hstage => hkeeps.parsed hstage, ?_, ?_⟩
  · intro hstate
    obtain ⟨h, hh⟩ := exists_headers? hstate
    exact ⟨h, fun media keys => ⟨outcome_headers_of_headers? hh media keys,
      outcome_headers_of_headers? (hkeeps.headers h hh) media keys⟩⟩
  · intro hrank
    obtain ⟨ds, hds⟩ := hca.exists_descriptors? hrank
    exact ⟨ds, fun media keys => ⟨outcome_descriptors_of_descriptors? hds media keys,
      outcome_descriptors_of_descriptors? (hkeeps.descriptors ds hds) media keys⟩⟩
  · intro h sections hstage
    obtain ⟨ds, hds, hdescribe, hmap, hkind⟩ := hcb.parsed hstage
    exact ⟨ds, outcome_descriptors_of_descriptors? hds, (Headers.describe_ok hdescribe).1, hmap,
      hkind⟩
  · intro α media keys c
    obtain ⟨hstate, hfail⟩ := outcome_call media keys c b
    generalize hreach : reach media keys c.goal b = r at hstate hfail ⊢
    rcases r with ⟨_ | _, b'⟩
    · exact ⟨Prod.ext (hfail _ rfl) hstate, advance_of_climb hreach⟩
    · exact ⟨hstate, rank_of_reach hreach⟩

end Archive

namespace Specimen

theorem parse_view : ∃ s : Section, s.outline = (descriptor, sectionView, .pfs0) ∧
    (Archive.parse media keys).outcome (.ofView view) = (.ok (), ⟨view, .parsed headers [s]⟩) := by
  obtain ⟨s, ring, houtline, hopen⟩ := openSections_view
  exact ⟨s, houtline, Archive.outcome_parse_ofView readHeaders_view describe_headers hopen⟩

/-- The specimen, parsed without keys at first, and then with them. -/
theorem progress_specimen : ∃ s : Section,
    Archive.Reaches (.ofView view) ((Archive.parse media .empty).outcome (.ofView view)).2 ∧
    Archive.Reaches ((Archive.parse media .empty).outcome (.ofView view)).2
      ⟨view, .parsed headers [s]⟩ ∧
    ∃ ds, (∀ media keys, (Archive.descriptors media keys).outcome ⟨view, .parsed headers [s]⟩
        = (.ok ds, ⟨view, .parsed headers [s]⟩)) ∧
      [s].map Section.descriptor = ds.filter Descriptor.isSupported ∧
      s.filesystem.kind = s.descriptor.kind := by
  obtain ⟨s, -, hparse⟩ := parse_view
  have hfirst : Archive.Reaches (.ofView view)
      ((Archive.parse media .empty).outcome (.ofView view)).2 :=
    .single ⟨media, .empty, .call .parse _⟩
  have hstay : (Archive.parse media .empty).outcome (.ofView view)
      = (.error .missingHeaderKey, .ofView view) := by
    have hread : Archive.advance media .empty (.ofView view) = .error .missingHeaderKey := rfl
    rw [Archive.outcome_parse]
    exact Archive.climb_of_advance_error hread 2
  have hsecond : Archive.Reaches (.ofView view) ⟨view, .parsed headers [s]⟩ := by
    have hstep : Archive.Step media keys (.ofView view)
        ((Archive.parse media keys).outcome (.ofView view)).2 := .call .parse _
    rw [hparse] at hstep
    exact .single ⟨media, keys, hstep⟩
  rw [hstay] at hfirst ⊢
  obtain ⟨ds, hds, -, hmap, hkind⟩ := (Archive.Reaches.progress hfirst hsecond).2.2.2.2.1 _ _ rfl
  exact ⟨s, hfirst, hsecond, ds, hds, hmap, hkind s (List.mem_singleton_self s)⟩

end Specimen

end Cartridge.Nca
