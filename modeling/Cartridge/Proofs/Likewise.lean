import Cartridge.Proofs.Laziness
import Cartridge.Proofs.Numbering
import Mathlib.Data.List.Forall2

/-!
# Runs that go alike

Two answers are alike if both are values, and these are related, or both are errors of one kind. What
an error says beside its kind, such as the offset where something was missed, may differ. Two operations
go in parallel if from related states they give answers that are alike and reach related states. Both
notions are kept by sequences, so two runs of one program are compared step by step.

Results:
* `Likewise.bind`, `Access.Parallel.bind`: sequences whose parts go alike go alike.
* `Lazy.Related.parallel_force`: containers that are read alike are alike once they have been read.
* `Catalog.Related`: catalogs that have related values under the same keys.
-/

namespace Cartridge

/-! ## Kinds of errors -/

/-- What an error is about, without what belongs to the single failure. -/
inductive ErrorKind where
  | stream
  | invalidMagic
  | truncated
  | outOfBounds
  | malformedTree
  | entryNotFound
  | partitionNotFound
  | missingTitleKey
  | missingAreaKey
  | missingHeaderKey
  | headerDecryptFailed
  | unrecognizedInnerFormat
  | unrecognizedFormat
  | hashMismatch
  | invalidKey
  | invalidData
  | unsupported
deriving DecidableEq, Repr

/-- The kind of an error. -/
def Error.kind : Error → ErrorKind
  | stream _ => .stream
  | invalidMagic _ _ => .invalidMagic
  | truncated _ => .truncated
  | outOfBounds _ _ _ => .outOfBounds
  | malformedTree _ => .malformedTree
  | entryNotFound _ => .entryNotFound
  | partitionNotFound _ => .partitionNotFound
  | missingTitleKey _ => .missingTitleKey
  | missingAreaKey _ => .missingAreaKey
  | missingHeaderKey => .missingHeaderKey
  | headerDecryptFailed _ => .headerDecryptFailed
  | unrecognizedInnerFormat _ => .unrecognizedInnerFormat
  | unrecognizedFormat => .unrecognizedFormat
  | hashMismatch _ => .hashMismatch
  | invalidKey _ => .invalidKey
  | invalidData _ => .invalidData
  | unsupported _ => .unsupported

/-! ## Answers -/

section Answers

variable {α α' β β' : Type} {R : α → α' → Prop} {Q : β → β' → Prop}

/-- Answers that are alike: related values, or errors of one kind. -/
inductive Likewise (R : α → α' → Prop) : Except Error α → Except Error α' → Prop where
  | ok {a : α} {a' : α'} (h : R a a') : Likewise R (.ok a) (.ok a')
  | error {e e' : Error} (h : e'.kind = e.kind) : Likewise R (.error e) (.error e')

namespace Likewise

theorem of_eq {r r' : Except Error α} (h : r' = r) : Likewise Eq r r' := by
  subst h
  cases r' with
  | ok a => exact .ok rfl
  | error e => exact .error rfl

/-- Sequences whose parts are alike are alike. -/
theorem bind {x : Except Error α} {x' : Except Error α'} {f : α → Except Error β}
    {f' : α' → Except Error β'} (hx : Likewise R x x')
    (hf : ∀ {a a'}, R a a' → Likewise Q (f a) (f' a')) : Likewise Q (x >>= f) (x' >>= f') := by
  cases hx with
  | ok ha => exact hf ha
  | error he => exact .error he

/-- Where the first parts give equal values, the second parts need to be alike on these only. -/
theorem bind_eq {x x' : Except Error α} {f : α → Except Error β} {f' : α → Except Error β'}
    (hx : Likewise Eq x x') (hf : ∀ a, Likewise Q (f a) (f' a)) : Likewise Q (x >>= f) (x' >>= f') := by
  refine hx.bind fun {a a'} h => ?_
  subst h
  exact hf a

end Likewise

end Answers

/-! ## Operations -/

namespace Access

variable {σ σ' α α' β β' : Type} {S : σ → σ' → Prop} {R : α → α' → Prop} {Q : β → β' → Prop}

/-- Operations that go in parallel, from related states to related states. -/
structure Parallel (S : σ → σ' → Prop) (R : α → α' → Prop) (x : Access σ α) (x' : Access σ' α') :
    Prop where
  answers : ∀ {s s'}, S s s' → Likewise R (x.outcome s).1 (x'.outcome s').1
  states : ∀ {s s'}, S s s' → S (x.outcome s).2 (x'.outcome s').2

namespace Parallel

theorem pure {a : α} {a' : α'} (h : R a a') : Parallel S R (pure a) (pure a') :=
  ⟨fun _ => .ok h, fun hs => hs⟩

theorem fail (e : Error) : Parallel S R (fail e) (fail e) := ⟨fun _ => .error rfl, fun hs => hs⟩

theorem liftM {t : Traced α} {t' : Traced α'} (h : Likewise R t.result t'.result) :
    Parallel S R (liftM t) (liftM t') :=
  ⟨fun _ => h, fun hs => hs⟩

theorem get : Parallel S S (get : Access σ σ) get := ⟨fun hs => .ok hs, fun hs => hs⟩

theorem ask {f : σ → Traced α} {f' : σ' → Traced α'}
    (h : ∀ {s s'}, S s s' → Likewise R (f s).result (f' s').result) :
    Parallel S R (ask f) (ask f') :=
  ⟨fun hs => h hs, fun hs => hs⟩

/-- Sequences whose parts go in parallel go in parallel. -/
theorem bind {x : Access σ α} {x' : Access σ' α'} {f : α → Access σ β} {f' : α' → Access σ' β'}
    (hx : Parallel S R x x') (hf : ∀ {a a'}, R a a' → Parallel S Q (f a) (f' a')) :
    Parallel S Q (x >>= f) (x' >>= f') := by
  have hboth {s s'} (hs : S s s') : Likewise Q ((x >>= f).outcome s).1 ((x' >>= f').outcome s').1 ∧
      S ((x >>= f).outcome s).2 ((x' >>= f').outcome s').2 := by
    have hanswers := hx.answers hs
    have hstates := hx.states hs
    rw [outcome_bind, outcome_bind]
    generalize x.outcome s = r at hanswers hstates
    generalize x'.outcome s' = r' at hanswers hstates
    obtain ⟨answer, t⟩ := r
    obtain ⟨answer', t'⟩ := r'
    cases hanswers with
    | ok ha => exact ⟨(hf ha).answers hstates, (hf ha).states hstates⟩
    | error he => exact ⟨.error he, hstates⟩
  exact ⟨fun hs => (hboth hs).1, fun hs => (hboth hs).2⟩

/-- Where the first parts give equal values, the second parts need to go in parallel on these only. -/
theorem bind_eq {x : Access σ α} {x' : Access σ' α} {f : α → Access σ β} {f' : α → Access σ' β'}
    (hx : Parallel S Eq x x') (hf : ∀ a, Parallel S Q (f a) (f' a)) :
    Parallel S Q (x >>= f) (x' >>= f') := by
  refine hx.bind fun {a a'} h => ?_
  subst h
  exact hf a

end Parallel

end Access

/-! ## Lazily read containers -/

section Slots

variable {τ τ' : Type} {R : τ → τ' → Prop}

/-- Slots that are both empty, or hold related values. -/
inductive Slot.Related (R : τ → τ' → Prop) : Slot τ → Slot τ' → Prop where
  | unparsed : Slot.Related R .unparsed .unparsed
  | parsed {t : τ} {t' : τ'} (h : R t t') : Slot.Related R (.parsed t) (.parsed t')

theorem Slot.Related.isParsed_eq {s : Slot τ} {s' : Slot τ'} (h : Slot.Related R s s') :
    s'.isParsed = s.isParsed := by
  cases h <;> rfl

end Slots

namespace Lazy

variable {σ τ : Type} {L : Lazy σ τ} {V : View → View → Prop} {R : τ → τ → Prop} {media media' : Media}

/-- Containers with related views, and with related tables if these have been read. -/
structure Related (L : Lazy σ τ) (V : View → View → Prop) (R : τ → τ → Prop) (c c' : σ) : Prop where
  view : V (L.view c) (L.view c')
  slot : Slot.Related R (L.slot c) (L.slot c')

theorem related_fresh {v v' : View} (h : V v v') : L.Related V R (L.fresh v) (L.fresh v') := by
  constructor
  · unfold fresh
    rwa [L.view_build, L.view_build]
  · unfold fresh
    rw [L.slot_build, L.slot_build]
    exact .unparsed

theorem related_parsed {v v' : View} {t t' : τ} (h : V v v') (ht : R t t') :
    L.Related V R (L.parsed v t) (L.parsed v' t') := by
  constructor
  · unfold parsed
    rwa [L.view_build, L.view_build]
  · unfold parsed
    rw [L.slot_build, L.slot_build]
    exact .parsed ht

/-- Of related containers either none has been read, or both have. -/
theorem Related.fresh_or_parsed {c c' : σ} (hc : L.Related V R c c') :
    (∃ v v', V v v' ∧ c = L.fresh v ∧ c' = L.fresh v') ∨
      ∃ v v' t t', V v v' ∧ R t t' ∧ c = L.parsed v t ∧ c' = L.parsed v' t' := by
  have hview := hc.view
  have hslot := hc.slot
  rw [← L.build_view_slot c, ← L.build_view_slot c']
  generalize L.slot c = s at hslot
  generalize L.slot c' = s' at hslot
  cases hslot with
  | unparsed => exact .inl ⟨_, _, hview, rfl, rfl⟩
  | parsed ht => exact .inr ⟨_, _, _, _, hview, ht, rfl, rfl⟩

/-- Where related views are read alike, asking for the tables goes in parallel. -/
theorem parallel_force
    (hread : ∀ {v v'}, V v v' → Likewise R (L.read v media).result (L.read v' media').result) :
    Access.Parallel (L.Related V R) R (L.force media) (L.force media') := by
  constructor <;> intro c c' hc <;>
    obtain ⟨v, v', hv, rfl, rfl⟩ | ⟨v, v', t, t', hv, ht, rfl, rfl⟩ := hc.fresh_or_parsed
  · rw [Access.outcome, Access.outcome, force_fresh, force_fresh]
    exact hread hv
  · rw [Access.outcome, Access.outcome, force_parsed, force_parsed]
    exact .ok ht
  · have htables := hread hv
    rw [Access.outcome, Access.outcome, force_fresh, force_fresh]
    dsimp only
    generalize (L.read v media).result = r at htables
    generalize (L.read v' media').result = r' at htables
    cases htables with
    | ok ht => exact related_parsed hv ht
    | error => exact related_fresh hv
  · rw [Access.outcome, Access.outcome, force_parsed, force_parsed]
    exact related_parsed hv ht

end Lazy

/-! ## Catalogs -/

namespace Catalog

variable {κ ν ν' : Type} {R : ν → ν' → Prop} {c : Catalog κ ν} {c' : Catalog κ ν'}

/-- Catalogs with related values under the same keys, in the same order. -/
def Related (R : ν → ν' → Prop) (c : Catalog κ ν) (c' : Catalog κ ν') : Prop :=
  List.Forall₂ (fun e e' => e'.1 = e.1 ∧ R e.2 e'.2) c.entries c'.entries

theorem Related.keys_eq (h : Related R c c') : c'.keys = c.keys := by
  obtain ⟨entries, hnodup⟩ := c
  obtain ⟨entries', hnodup'⟩ := c'
  change entries'.map Prod.fst = entries.map Prod.fst
  change List.Forall₂ _ entries entries' at h
  clear hnodup hnodup'
  induction h with
  | nil => rfl
  | cons he _ ih => rw [List.map_cons, List.map_cons, he.1, ih]

variable [DecidableEq κ]

/-- What is found under a key is related. -/
theorem Related.find? (h : Related R c c') (key : κ) :
    Option.Rel R (c.find? key) (c'.find? key) := by
  obtain ⟨entries, hnodup⟩ := c
  obtain ⟨entries', hnodup'⟩ := c'
  change Option.Rel R ((entries.find? fun e => e.1 == key).map Prod.snd)
    ((entries'.find? fun e => e.1 == key).map Prod.snd)
  change List.Forall₂ _ entries entries' at h
  clear hnodup hnodup'
  induction h with
  | nil => exact .none
  | cons he _ ih =>
    rw [List.find?_cons, List.find?_cons, he.1]
    split
    · exact .some he.2
    · exact ih

theorem Related.insert (h : Related R c c') (key : κ) {value : ν} {value' : ν'} (hv : R value value') :
    Related R (c.insert key value) (c'.insert key value') := by
  refine .cons ⟨rfl, hv⟩ (List.rel_filter ?_ h)
  intro e e' he
  simp only [he.1]

theorem Related.modify (h : Related R c c') (key : κ) {f : ν → ν} {f' : ν' → ν'}
    (hf : ∀ {v v'}, R v v' → R (f v) (f' v')) : Related R (c.modify key f) (c'.modify key f') := by
  refine List.rel_map ?_ h
  intro e e' he
  dsimp only
  rw [he.1]
  by_cases hkey : e.1 = key
  · rw [if_pos hkey, if_pos hkey]
    exact ⟨rfl, hf he.2⟩
  · rw [if_neg hkey, if_neg hkey]
    exact he

/-- Catalogs that are written alike are related. -/
theorem related_ofList {writes : List (κ × ν)} {writes' : List (κ × ν')}
    (h : List.Forall₂ (fun w w' => w'.1 = w.1 ∧ R w.2 w'.2) writes writes') :
    Related R (ofList writes) (ofList writes') := by
  unfold ofList
  have hstart : Related R (empty : Catalog κ ν) (empty : Catalog κ ν') := .nil
  generalize (empty : Catalog κ ν) = c at hstart
  generalize (empty : Catalog κ ν') = c' at hstart
  induction h generalizing c c' with
  | nil => exact hstart
  | cons hw _ ih =>
    refine ih _ _ ?_
    dsimp only
    rw [hw.1]
    exact hstart.insert _ hw.2

end Catalog

end Cartridge
