import Mlmq.Common.Configuration

/-! # Who is paired with whom

A `PairedClient` takes its role and its partner from the parity of its place in the list of all
clients, whatever their classes are. So the clients at the places `2 * k` and `2 * k + 1` are
partners, and every `PairedClient` has a partner of its class iff both of them, or none, are of this
class (`wellPaired_iff`). -/

namespace Mlmq.Scenario.Pairing

open Mlmq.Common.Configuration Mlmq.Lib.Nio

/-- The clients of a configuration. -/
structure ClientConfiguration where
  clientScenarioMappings : List ClientScenarioMapping
  numbered : Numbered (fun m => m.position) clientScenarioMappings

/-- The configuration of a text. -/
def ClientConfiguration.ofText (toParse : List Char) : Except Throwable ClientConfiguration :=
  match h : parseClientScenarioMapping toParse with
  | .ok mappings => .ok ⟨mappings, numbered_parseClientScenarioMapping h⟩
  | .error x => .error x

/-- `list.indexOf(o)`. A mapping has no `equals`, and two of them have different positions. -/
def indexOf (list : List ClientScenarioMapping) (o : ClientScenarioMapping) : ℤ :=
  if o ∈ list then list.idxOf o else -1

def getPartnerClient (config : ClientConfiguration) (myMapping : ClientScenarioMapping) :
    Option ClientScenarioMapping :=
  let allMappings := config.clientScenarioMappings
  let myIndex := indexOf allMappings myMapping
  if myIndex.tmod 2 = 0 then
    if myIndex + 1 < allMappings.length then allMappings[(myIndex + 1).toNat]? else none
  else if myIndex - 1 ≥ 0 then allMappings[(myIndex - 1).toNat]? else none

/-- The role in `run`. -/
def requesting (myMapping : ClientScenarioMapping) : Bool := myMapping.position % 2 = 0

/-- `findScenario` gives the class `PairedClient`. -/
def IsPairedClient (m : ClientScenarioMapping) : Prop := m.name = some "PairedClient".toList

instance (m : ClientScenarioMapping) : Decidable (IsPairedClient m) :=
  inferInstanceAs (Decidable (_ = _))

/-- **Everybody is well paired**: a `PairedClient` has a partner, which is another one and has it as
its partner, and one of them is requesting. -/
def WellPaired (config : ClientConfiguration) : Prop :=
  ∀ m ∈ config.clientScenarioMappings, IsPairedClient m →
    ∃ partner, getPartnerClient config m = some partner ∧ IsPairedClient partner ∧
      getPartnerClient config partner = some m ∧ partner ≠ m ∧ requesting partner ≠ requesting m

/-- A `PairedClient` has the place `i`. -/
def PairedAt (config : ClientConfiguration) (i : ℕ) : Prop :=
  ∃ m, config.clientScenarioMappings[i]? = some m ∧ IsPairedClient m

/-- Of two neighbours, both are of the class or none. -/
def Aligned (config : ClientConfiguration) : Prop :=
  ∀ k, PairedAt config (2 * k) ↔ PairedAt config (2 * k + 1)

/-! ### The place of the partner -/

def partnerIndex (i : ℕ) : ℕ := if i % 2 = 0 then i + 1 else i - 1

theorem partnerIndex_partnerIndex (i : ℕ) : partnerIndex (partnerIndex i) = i := by
  unfold partnerIndex
  split_ifs <;> omega

theorem partnerIndex_mod_two (i : ℕ) : partnerIndex i % 2 = 1 - i % 2 := by
  unfold partnerIndex
  split_ifs <;> omega

section
variable {config : ClientConfiguration} {m partner : ClientScenarioMapping} {i : ℕ}

theorem indexOf_eq (h : config.clientScenarioMappings[i]? = some m) :
    indexOf config.clientScenarioMappings m = i := by
  have hmem := List.mem_of_getElem? h
  have hidx := List.getElem?_idxOf hmem
  have hpos := config.numbered _ _ hidx
  have hpos' := config.numbered _ _ h
  unfold indexOf
  rw [if_pos hmem, ← hpos, hpos']

/-- **The partner**, if there is somebody at its place. -/
theorem getPartnerClient_eq (h : config.clientScenarioMappings[i]? = some m) :
    getPartnerClient config m = config.clientScenarioMappings[partnerIndex i]? := by
  unfold getPartnerClient partnerIndex
  dsimp only
  rw [indexOf_eq h, Int.tmod_eq_emod_of_nonneg i.cast_nonneg]
  by_cases heven : i % 2 = 0
  · have hmod : (i : ℤ) % 2 = 0 := by omega
    rw [if_pos hmod, if_pos heven]
    by_cases hlt : i + 1 < config.clientScenarioMappings.length
    · rw [if_pos (by exact_mod_cast hlt)]
      rfl
    · rw [if_neg (by exact_mod_cast hlt), List.getElem?_eq_none (not_lt.mp hlt)]
  · have hmod : ¬ (i : ℤ) % 2 = 0 := by omega
    have hindex : ((i : ℤ) - 1).toNat = i - 1 := by omega
    rw [if_neg hmod, if_neg heven, if_pos (by omega), hindex]

end

theorem Aligned.partner {config : ClientConfiguration} (h : Aligned config) {i : ℕ}
    (hi : PairedAt config i) : PairedAt config (partnerIndex i) := by
  unfold partnerIndex
  split_ifs with heven
  · have hk : i = 2 * (i / 2) := by omega
    rw [hk] at hi ⊢
    exact (h _).mp hi
  · have hk : i = 2 * (i / 2) + 1 := by omega
    rw [hk] at hi ⊢
    exact (h _).mpr hi

/-- Neighbours that fit are partners. -/
theorem Aligned.wellPaired {config : ClientConfiguration} (h : Aligned config) :
    WellPaired config := by
  intro m hmem hm
  obtain ⟨i, hget⟩ := List.mem_iff_getElem?.mp hmem
  obtain ⟨partner, hget', hclass⟩ := h.partner ⟨m, hget, hm⟩
  have hposition : m.position = i := config.numbered _ _ hget
  have hposition' : partner.position = partnerIndex i := config.numbered _ _ hget'
  have hmod := partnerIndex_mod_two i
  refine ⟨partner, ?_, hclass, ?_, ?_, ?_⟩
  · rw [getPartnerClient_eq hget, hget']
  · rw [getPartnerClient_eq hget', partnerIndex_partnerIndex, hget]
  · rintro rfl
    omega
  · unfold requesting
    rw [hposition, hposition']
    intro heq
    have := decide_eq_decide.mp heq
    omega

/-- The partner of a well paired client is the neighbour. -/
theorem WellPaired.aligned {config : ClientConfiguration} (h : WellPaired config) :
    Aligned config := by
  have hnext : ∀ i, PairedAt config i → PairedAt config (partnerIndex i) := by
    rintro i ⟨m, hget, hm⟩
    obtain ⟨partner, hpartner, hclass, -⟩ := h m (List.mem_of_getElem? hget) hm
    rw [getPartnerClient_eq hget] at hpartner
    exact ⟨partner, hpartner, hclass⟩
  intro k
  have heven : partnerIndex (2 * k) = 2 * k + 1 := if_pos (by omega)
  have hodd : partnerIndex (2 * k + 1) = 2 * k := if_neg (by omega)
  constructor
  · intro hk
    rw [← heven]
    exact hnext _ hk
  · intro hk
    rw [← hodd]
    exact hnext _ hk

/-- **Everybody is well paired iff the neighbours fit.** -/
theorem wellPaired_iff (config : ClientConfiguration) : WellPaired config ↔ Aligned config :=
  ⟨WellPaired.aligned, Aligned.wellPaired⟩

/-- Clients of some classes on one host. -/
def ofClasses (classes : List (List Char)) : ClientConfiguration where
  clientScenarioMappings := classes.mapIdx fun i name => ⟨⟨some name, ['x'], i⟩⟩
  numbered := by
    intro i m h
    rw [List.getElem?_mapIdx] at h
    obtain ⟨name, -, rfl⟩ := Option.map_eq_some_iff.mp h
    rfl

/-- A `OneWayClient` in front of two partners. -/
def shifted : ClientConfiguration :=
  ofClasses ["OneWayClient".toList, "PairedClient".toList, "PairedClient".toList]

/-- An even number of clients of the class is not enough. -/
theorem shifted_not_wellPaired : ¬ ∀ config : ClientConfiguration,
    Even (config.clientScenarioMappings.countP fun m => IsPairedClient m) → WellPaired config := by
  intro h
  have heven : Even (shifted.clientScenarioMappings.countP fun m => IsPairedClient m) := by decide
  have hget : shifted.clientScenarioMappings[1]? =
      some ⟨⟨some "PairedClient".toList, ['x'], 1⟩⟩ := rfl
  obtain ⟨partner, hpartner, hclass, -⟩ := h shifted heven _ (List.mem_of_getElem? hget) rfl
  rw [getPartnerClient_eq hget] at hpartner
  rw [← Option.some.inj hpartner] at hclass
  exact absurd hclass (by decide)

/-! ### A configuration with one class -/

theorem exists_ofText {toParse : List Char} {mappings : List ClientScenarioMapping}
    (h : parseClientScenarioMapping toParse = .ok mappings) :
    ∃ config, ClientConfiguration.ofText toParse = .ok config ∧
      config.clientScenarioMappings = mappings := by
  unfold ClientConfiguration.ofText
  split
  · rename_i mappings' h'
    exact ⟨_, rfl, Except.ok.inj (h'.symm.trans h)⟩
  · rename_i x h'
    exact absurd (h'.symm.trans h) nofun

/-- An even number of clients that are all of the class fit. -/
theorem aligned_of_forall {config : ClientConfiguration}
    (hall : ∀ m ∈ config.clientScenarioMappings, IsPairedClient m)
    (heven : config.clientScenarioMappings.length % 2 = 0) : Aligned config := by
  have hpaired : ∀ i, PairedAt config i ↔ i < config.clientScenarioMappings.length := by
    intro i
    constructor
    · rintro ⟨m, hget, -⟩
      exact (List.getElem?_eq_some_iff.mp hget).1
    · intro hi
      exact ⟨_, List.getElem?_eq_getElem hi, hall _ (List.getElem_mem hi)⟩
  intro k
  rw [hpaired, hpaired]
  omega

/-- **The pairs of a printed configuration**: the class is written once, in front of the first of an
even number of hosts. -/
theorem wellPaired_ofText {first : Entry} (hfirst : first.name = some "PairedClient".toList)
    {rest : List (Separator × Entry)} (hrest : ∀ x ∈ rest, x.2.name = none)
    (hodd : rest.length % 2 = 1) :
    ∃ config, ClientConfiguration.ofText (printed Entry.text first rest) = .ok config ∧
      WellPaired config := by
  have hnamed : first.name ≠ none := by
    rw [hfirst]
    exact Option.some_ne_none _
  obtain ⟨mappings, hparse, hlength, heach⟩ := parseMappings_printed _ Entry.text_ne_nil
    Entry.not_separator readEntry_client hnamed rest
  obtain ⟨config, hconfig, rfl⟩ := exists_ofText hparse
  rw [List.length_cons, List.length_map] at hlength
  refine ⟨config, hconfig, (aligned_of_forall (fun m hm => ?_) (by omega)).wellPaired⟩
  obtain ⟨i, hget⟩ := List.mem_iff_getElem?.mp hm
  have hi := (List.getElem?_eq_some_iff.mp hget).1
  have he : i < (first :: rest.map Prod.snd).length := by
    rw [List.length_cons, List.length_map]
    omega
  obtain ⟨name, ⟨k, -, hname, -⟩, hmapping⟩ := heach i _ (List.getElem?_eq_getElem he)
  rw [hget] at hmapping
  have hclass : m.name = some name := congrArg (fun m => m.name) (Option.some.inj hmapping)
  unfold IsPairedClient
  rw [hclass, ← hfirst]
  cases k with
  | zero => exact (Option.some.inj hname).symm
  | succ k =>
    rw [List.map_cons, List.getElem?_cons_succ, List.map_map, List.getElem?_map] at hname
    obtain ⟨x, hx, hnone⟩ := Option.map_eq_some_iff.mp hname
    rw [Function.comp_apply, hrest x (List.mem_of_getElem? hx)] at hnone
    exact nomatch hnone

end Mlmq.Scenario.Pairing
