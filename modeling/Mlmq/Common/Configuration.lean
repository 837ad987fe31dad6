import Mlmq.Log.PerformanceLog

/-! # The mappings of the configuration

Two texts of the configuration say which scenario is played where: entries `name#host` for the
clients and `name#host:port` for the brokers, with commas and semicolons between them. The name of a
scenario class may be left out; then it is the one of the entry before.

Whatever the separators are, there is one mapping for each entry, with its index as position and the
nearest name (`parse_printed`). -/

namespace Mlmq.Common.Configuration

open Mlmq.Lib.Text Mlmq.Lib.Nio
open Mlmq.Log.PerformanceLog (parseInt parseInt_showInt)

/-! ### The parser -/

structure ScenarioMapping where
  name : Option (List Char)
  host : List Char
  position : ℕ
deriving DecidableEq, Repr

structure ClientScenarioMapping extends ScenarioMapping
deriving DecidableEq, Repr

structure BrokerScenarioMapping extends ScenarioMapping where
  port : Int32
deriving DecidableEq, Repr

/-- `s.indexOf(c)`. -/
def indexOf (c : Char) (s : List Char) : ℤ := if c ∈ s then s.idxOf c else -1

/-- `s.substring(beginIndex, endIndex)`. -/
def substring (s : List Char) (beginIndex endIndex : ℤ) : Except Throwable (List Char) :=
  let outOfRange (i : ℤ) := .error (.runtimeMessage ("String index out of range: " ++ toString i))
  if beginIndex < 0 then outOfRange beginIndex
  else if endIndex > s.length then outOfRange endIndex
  else if endIndex - beginIndex < 0 then outOfRange (endIndex - beginIndex)
  else .ok ((s.take endIndex.toNat).drop beginIndex.toNat)

/-- The variables of the two loops. -/
structure Parsing (μ : Type) where
  result : List μ
  position : ℕ
  name : Option (List Char)

/-- What the parsers make of an entry: its part behind the name, the name and the position. -/
abbrev MappingOf (μ : Type) :=
  List Char → ℤ → Option (List Char) → ℕ → Except Throwable μ

/-- The name behind an entry. -/
def readName (name : Option (List Char)) (nameEndIndex : ℤ) (entry : List Char) :
    Except Throwable (Option (List Char)) :=
  if nameEndIndex > 0 then some <$> substring entry 0 nameEndIndex else return name

/-- The body of the inner loop. -/
def readEntry {μ : Type} (mappingOf : MappingOf μ) (state : Parsing μ) (entry : List Char) :
    Except Throwable (Parsing μ) := do
  let nameEndIndex := indexOf '#' entry
  let name ← readName state.name nameEndIndex entry
  let mapping ← mappingOf entry nameEndIndex name state.position
  return { result := state.result ++ [mapping], position := state.position + 1, name }

/-- What the parsers have in common. -/
def parseMappings {μ : Type} (mappingOf : MappingOf μ) (toParse : List Char) :
    Except Throwable (List μ) := do
  let state ← (split ';' toParse).foldlM
    (fun state group => (split ',' group).foldlM (readEntry mappingOf) state)
    { result := [], position := 0, name := none }
  return state.result

def clientMapping : MappingOf ClientScenarioMapping := fun client nameEndIndex name position => do
  let host ← substring client (nameEndIndex + 1) client.length
  return { name, host, position }

def brokerMapping : MappingOf BrokerScenarioMapping := fun broker nameEndIndex name position => do
  let hostEndIndex := indexOf ':' broker
  let host ← substring broker (nameEndIndex + 1) hostEndIndex
  let portString ← substring broker (hostEndIndex + 1) broker.length
  let port ← parseInt portString
  return { name, host, port, position }

def parseClientScenarioMapping (toParse : List Char) :
    Except Throwable (List ClientScenarioMapping) :=
  parseMappings clientMapping toParse

def parseBrokerScenarioMapping (toParse : List Char) :
    Except Throwable (List BrokerScenarioMapping) :=
  parseMappings brokerMapping toParse

/-! ### The printed entries -/

/-- A name or a host: some characters that separate nothing. -/
def Plain (s : List Char) : Prop := s ≠ [] ∧ ∀ c ∈ s, c ≠ '#' ∧ c ≠ ':' ∧ c ≠ ',' ∧ c ≠ ';'

/-- An entry of a client. -/
structure Entry where
  name : Option (List Char)
  host : List Char
  name_plain : ∀ n ∈ name, Plain n
  host_plain : Plain host

/-- An entry of a broker. -/
structure BrokerEntry extends Entry where
  port : Int32

def Entry.text (e : Entry) : List Char := e.name.elim [] (· ++ ['#']) ++ e.host

def BrokerEntry.text (e : BrokerEntry) : List Char :=
  e.toEntry.text ++ ':' :: showInt e.port.toInt

/-- The mapping of an entry with a name at a position. -/
def Entry.mapping (e : Entry) (name : Option (List Char)) (position : ℕ) :
    ClientScenarioMapping where
  name := name
  host := e.host
  position := position

def BrokerEntry.mapping (e : BrokerEntry) (name : Option (List Char)) (position : ℕ) :
    BrokerScenarioMapping where
  name := name
  host := e.host
  port := e.port
  position := position

inductive Separator
  | comma
  | semicolon
deriving DecidableEq, Repr

def Separator.char : Separator → Char
  | comma => ','
  | semicolon => ';'

/-- The text of some entries. -/
def printed {ε : Type} (text : ε → List Char) (first : ε) (rest : List (Separator × ε)) :
    List Char :=
  text first ++ rest.flatMap fun x => x.1.char :: text x.2

/-- The name of the nearest entry at an index or before it that has one. -/
def Nearest (names : List (Option (List Char))) (i : ℕ) (name : List Char) : Prop :=
  ∃ k ≤ i, names[k]? = some (some name) ∧ ∀ j, k < j → j ≤ i → names[j]? = some none

/-- **One mapping for each entry**, in order and with the nearest name. -/
def MapsEach {ε μ : Type} (nameOf : ε → Option (List Char))
    (mapping : ε → Option (List Char) → ℕ → μ) (entries : List ε) (mappings : List μ) : Prop :=
  mappings.length = entries.length ∧ ∀ i e, entries[i]? = some e →
    ∃ name, Nearest (entries.map nameOf) i name ∧ mappings[i]? = some (mapping e (some name) i)

/-! ### The fields of an entry -/

theorem indexOf_append {c : Char} {a : List Char} (h : c ∉ a) (b : List Char) :
    indexOf c (a ++ c :: b) = a.length := by
  unfold indexOf
  rw [if_pos (by simp), List.idxOf_append_of_notMem h, List.idxOf_cons_self, Nat.add_zero]

theorem indexOf_eq_neg_one {c : Char} {s : List Char} (h : c ∉ s) : indexOf c s = -1 := if_neg h

/-- The part between two others. -/
theorem substring_append (a b c : List Char) :
    substring (a ++ (b ++ c)) a.length (a.length + b.length : ℕ) = .ok b := by
  have hlength : (a ++ (b ++ c)).length = a.length + (b.length + c.length) := by
    rw [List.length_append, List.length_append]
  unfold substring
  rw [if_neg (by omega), if_neg (by rw [hlength]; omega), if_neg (by push_cast; omega),
    Int.toNat_natCast, Int.toNat_natCast, List.drop_take, List.drop_left, Nat.add_sub_cancel_left,
    List.take_left]

theorem Entry.hash_not_mem_name {e : Entry} {name : List Char} (h : e.name = some name) :
    '#' ∉ name := fun hmem => ((e.name_plain name h).2 _ hmem).1 rfl

theorem Entry.hash_not_mem_host (e : Entry) : '#' ∉ e.host := fun hmem =>
  (e.host_plain.2 _ hmem).1 rfl

theorem Entry.text_of_some {e : Entry} {name : List Char} (h : e.name = some name) :
    e.text = name ++ '#' :: e.host := by
  unfold Entry.text
  rw [h, Option.elim_some, List.append_assoc, List.singleton_append]

theorem Entry.text_of_none {e : Entry} (h : e.name = none) : e.text = e.host := by
  unfold Entry.text
  rw [h, Option.elim_none, List.nil_append]

theorem Entry.text_ne_nil (e : Entry) : e.text ≠ [] :=
  List.append_ne_nil_of_right_ne_nil _ e.host_plain.1

/-- An entry has no separator and no colon. -/
theorem Entry.of_mem_text {e : Entry} {c : Char} (h : c ∈ e.text) : c ≠ ':' ∧ c ≠ ',' ∧ c ≠ ';' := by
  cases hname : e.name with
  | none =>
    rw [e.text_of_none hname] at h
    exact (e.host_plain.2 c h).2
  | some name =>
    rw [e.text_of_some hname, List.mem_append, List.mem_cons] at h
    rcases h with h | rfl | h
    · exact ((e.name_plain name hname).2 c h).2
    · decide
    · exact (e.host_plain.2 c h).2

/-- **The name of an entry** is read, or the one before is kept, and the host is behind it. -/
theorem Entry.readName (e : Entry) {rest : List Char} (hrest : '#' ∉ rest)
    (name : Option (List Char)) :
    ∃ before, e.text = before ++ e.host ∧ indexOf '#' (e.text ++ rest) + 1 = before.length ∧
      readName name (indexOf '#' (e.text ++ rest)) (e.text ++ rest) = .ok (e.name.or name) := by
  unfold Configuration.readName
  cases hname : e.name with
  | none =>
    rw [e.text_of_none hname]
    have hindex : indexOf '#' (e.host ++ rest) = -1 := indexOf_eq_neg_one fun hmem =>
      (List.mem_append.mp hmem).elim e.hash_not_mem_host hrest
    rw [hindex]
    exact ⟨[], rfl, rfl, rfl⟩
  | some own =>
    have hindex : indexOf '#' (own ++ '#' :: (e.host ++ rest)) = own.length :=
      indexOf_append (e.hash_not_mem_name hname) _
    have hpos : (own.length : ℤ) > 0 := by
      have := List.length_pos_iff.mpr (e.name_plain own hname).1
      omega
    have hread := substring_append [] own ('#' :: (e.host ++ rest))
    rw [List.nil_append, List.length_nil, Nat.zero_add, Nat.cast_zero] at hread
    rw [e.text_of_some hname, List.append_assoc, List.cons_append, hindex, if_pos hpos, hread]
    refine ⟨own ++ ['#'], ?_, ?_, rfl⟩
    · rw [List.append_assoc, List.singleton_append]
    · rw [List.length_append, List.length_singleton]
      push_cast
      rfl

/-! ### The parser on the entries -/

/-- The state behind an entry. -/
def Parsing.next {μ : Type} (state : Parsing μ) (name : Option (List Char)) (mapping : μ) :
    Parsing μ where
  result := state.result ++ [mapping]
  position := state.position + 1
  name := name

theorem readEntry_client (e : Entry) (state : Parsing ClientScenarioMapping) :
    readEntry clientMapping state e.text = .ok (state.next (e.name.or state.name)
      (e.mapping (e.name.or state.name) state.position)) := by
  obtain ⟨before, htext, hindex, hname⟩ := e.readName List.not_mem_nil state.name
  rw [List.append_nil] at hindex hname
  have hhost : substring e.text (indexOf '#' e.text + 1) e.text.length = .ok e.host := by
    have hsub := substring_append before e.host []
    rwa [List.append_nil, ← htext, ← List.length_append, ← htext, ← hindex] at hsub
  unfold readEntry clientMapping
  simp only [hname, hhost]
  rfl

theorem readEntry_broker (e : BrokerEntry) (state : Parsing BrokerScenarioMapping) :
    readEntry brokerMapping state e.text = .ok (state.next (e.name.or state.name)
      (e.mapping (e.name.or state.name) state.position)) := by
  have hrest : '#' ∉ ':' :: showInt e.port.toInt := by
    rw [List.mem_cons, not_or]
    exact ⟨by decide, not_mem_showInt (by decide) (by decide) _⟩
  obtain ⟨before, htext, hindex, hname⟩ := e.toEntry.readName hrest state.name
  have hcolon : indexOf ':' e.text = e.toEntry.text.length :=
    indexOf_append (fun hmem => (Entry.of_mem_text hmem).1 rfl) _
  have hhost : substring e.text (indexOf '#' e.text + 1) (indexOf ':' e.text) = .ok e.host := by
    have hsub := substring_append before e.host (':' :: showInt e.port.toInt)
    rwa [← List.append_assoc, ← List.length_append, ← htext, ← hindex, ← hcolon] at hsub
  have hport : substring e.text (indexOf ':' e.text + 1) e.text.length =
      .ok (showInt e.port.toInt) := by
    have hsub := substring_append (e.toEntry.text ++ [':']) (showInt e.port.toInt) []
    rw [List.append_nil, List.append_assoc, List.singleton_append, ← List.length_append,
      List.append_assoc, List.singleton_append, List.length_append, List.length_singleton] at hsub
    rw [hcolon]
    exact_mod_cast hsub
  unfold readEntry brokerMapping
  simp only [BrokerEntry.text] at hhost hport ⊢
  simp only [hname, hhost, hport, bind, Except.bind, parseInt_showInt]
  rfl

theorem Entry.not_separator (e : Entry) : ∀ c ∈ e.text, (c == ';' || c == ',') = false := by
  intro c hc
  obtain ⟨-, hcomma, hsemicolon⟩ := Entry.of_mem_text hc
  simp [hcomma, hsemicolon]

theorem BrokerEntry.not_separator (e : BrokerEntry) :
    ∀ c ∈ e.text, (c == ';' || c == ',') = false := by
  intro c hc
  rcases List.mem_append.mp hc with hc | hc
  · exact e.toEntry.not_separator c hc
  · have hshow : ∀ sep : Char, sep.isDigit = false → sep ≠ '-' → sep ≠ ':' → c ≠ sep := by
      rintro sep hdigit hsign hcolon rfl
      rcases List.mem_cons.mp hc with h | h
      · exact hcolon h
      · exact not_mem_showInt hdigit hsign _ h
    simp [hshow ';' (by decide) (by decide) (by decide), hshow ',' (by decide) (by decide) (by decide)]

theorem Separator.separates (sep : Separator) : (sep.char == ';' || sep.char == ',') = true := by
  cases sep <;> rfl

section
variable {ε μ : Type} {text : ε → List Char} {nameOf : ε → Option (List Char)}

/-- The printed entries are what is between the separators. -/
theorem flatMap_split_printed (hne : ∀ e, text e ≠ [])
    (hsep : ∀ e, ∀ c ∈ text e, (c == ';' || c == ',') = false) (first : ε)
    (rest : List (Separator × ε)) :
    (split ';' (printed text first rest)).flatMap (split ',') =
      (first :: rest.map Prod.snd).map text := by
  have hfields : (printed text first rest).splitOnP (fun c => c == ';' || c == ',') =
      (first :: rest.map Prod.snd).map text := by
    have hrest : ∀ x ∈ rest.map fun x => (x.1.char, text x.2),
        (x.1 == ';' || x.1 == ',') = true ∧ ∀ c ∈ x.2, (c == ';' || c == ',') = false := by
      intro x hx
      obtain ⟨y, -, rfl⟩ := List.mem_map.mp hx
      exact ⟨y.1.separates, hsep y.2⟩
    have hsplit := splitOnP_separated (hsep first) hrest
    rw [List.flatMap_map, List.map_map] at hsplit
    rw [List.map_cons, List.map_map]
    exact hsplit
  rw [flatMap_split, hfields]
  rw [hfields]
  intro field hfield
  obtain ⟨e, -, rfl⟩ := List.mem_map.mp hfield
  exact hne e

/-- The mappings of some entries behind a name, from a position on. -/
def inherit (nameOf : ε → Option (List Char)) (mapping : ε → Option (List Char) → ℕ → μ) :
    Option (List Char) → ℕ → List ε → List μ
  | _, _, [] => []
  | name, position, e :: entries =>
    mapping e ((nameOf e).or name) position ::
      inherit nameOf mapping ((nameOf e).or name) (position + 1) entries

variable {mapping : ε → Option (List Char) → ℕ → μ} {mappingOf : MappingOf μ}

/-- **The loops read each entry.** -/
theorem foldlM_readEntry (hread : ∀ e state, readEntry mappingOf state (text e) = .ok
      (state.next ((nameOf e).or state.name) (mapping e ((nameOf e).or state.name) state.position)))
    (entries : List ε) (state : Parsing μ) :
    ∃ state', (entries.map text).foldlM (readEntry mappingOf) state = .ok state' ∧
      state'.result = state.result ++ inherit nameOf mapping state.name state.position entries := by
  induction entries generalizing state with
  | nil => exact ⟨state, rfl, (List.append_nil _).symm⟩
  | cons e entries ih =>
    obtain ⟨state', hfold, hresult⟩ := ih (state.next ((nameOf e).or state.name)
      (mapping e ((nameOf e).or state.name) state.position))
    refine ⟨state', ?_, ?_⟩
    · rw [List.map_cons, List.foldlM_cons, hread]
      exact hfold
    · rw [hresult, inherit, Parsing.next, List.append_assoc, List.singleton_append]

theorem length_inherit (entries : List ε) (name : Option (List Char)) (position : ℕ) :
    (inherit nameOf mapping name position entries).length = entries.length := by
  induction entries generalizing name position with
  | nil => rfl
  | cons e entries ih => rw [inherit, List.length_cons, ih, List.length_cons]

theorem Nearest.cons {names : List (Option (List Char))} {i : ℕ} {name : List Char}
    (h : Nearest names i name) (first : Option (List Char)) :
    Nearest (first :: names) (i + 1) name := by
  obtain ⟨k, hk, hget, hnone⟩ := h
  refine ⟨k + 1, by omega, hget, fun j hj hj' => ?_⟩
  cases j with
  | zero => omega
  | succ j => exact hnone j (by omega) (by omega)

theorem nearest_first {names : List (Option (List Char))} {i : ℕ} {name : List Char}
    (h : ∀ j < i, names[j]? = some none) : Nearest (some name :: names) i name := by
  refine ⟨0, i.zero_le, rfl, fun j hj hj' => ?_⟩
  cases j with
  | zero => omega
  | succ j => exact h j (by omega)

variable (nameOf mapping) in
/-- The name of a mapping is the nearest one among the entries, or the one before all of them. -/
theorem getElem?_inherit {entries : List ε} {i : ℕ} {e : ε} (h : entries[i]? = some e)
    (before : Option (List Char)) (position : ℕ) :
    ∃ name, (inherit nameOf mapping before position entries)[i]? =
        some (mapping e name (position + i)) ∧
      ((∃ own, name = some own ∧ Nearest (entries.map nameOf) i own) ∨
        name = before ∧ ∀ j < i + 1, (entries.map nameOf)[j]? = some none) := by
  induction entries generalizing i before position with
  | nil => exact absurd h (by simp)
  | cons a entries ih =>
    rw [inherit, List.map_cons]
    cases i with
    | zero =>
      obtain rfl := Option.some.inj h
      refine ⟨(nameOf a).or before, rfl, ?_⟩
      cases hown : nameOf a with
      | none =>
        refine Or.inr ⟨rfl, fun j hj => ?_⟩
        obtain rfl : j = 0 := by omega
        rfl
      | some own => exact Or.inl ⟨own, rfl, nearest_first fun j hj => absurd hj j.not_lt_zero⟩
    | succ i =>
      obtain ⟨name, hget, hname⟩ := ih h ((nameOf a).or before) (position + 1)
      refine ⟨name, ?_, ?_⟩
      · rw [List.getElem?_cons_succ, hget, Nat.add_right_comm, Nat.add_assoc]
      · rcases hname with ⟨own, hname, hnear⟩ | ⟨hname, hnone⟩
        · exact Or.inl ⟨own, hname, hnear.cons _⟩
        · rw [hname]
          cases hown : nameOf a with
          | none =>
            refine Or.inr ⟨rfl, fun j hj => ?_⟩
            cases j with
            | zero => rfl
            | succ j => exact hnone j (by omega)
          | some own => exact Or.inl ⟨own, rfl, nearest_first hnone⟩

theorem bind_eq_ok_iff {α β : Type} {x : Except Throwable α} {f : α → Except Throwable β} {b : β} :
    x >>= f = .ok b ↔ ∃ a, x = .ok a ∧ f a = .ok b := by
  cases x with
  | error e => exact ⟨nofun, fun ⟨a, h, _⟩ => nomatch h⟩
  | ok a => exact ⟨fun h => ⟨a, rfl, h⟩, fun ⟨_, h, h'⟩ => by rwa [← Except.ok.inj h] at h'⟩

theorem foldlM_flatMap {α β σ : Type} (f : σ → β → Except Throwable σ) (g : α → List β)
    (l : List α) (s : σ) :
    (l.flatMap g).foldlM f s = l.foldlM (fun s a => (g a).foldlM f s) s := by
  induction l generalizing s with
  | nil => rfl
  | cons a l ih =>
    rw [List.flatMap_cons, List.foldlM_append, List.foldlM_cons]
    exact bind_congr ih

variable (nameOf) in
/-- **What is printed is read back**, if the first entry has a name. -/
theorem parseMappings_printed (hne : ∀ e, text e ≠ [])
    (hsep : ∀ e, ∀ c ∈ text e, (c == ';' || c == ',') = false)
    (hread : ∀ e state, readEntry mappingOf state (text e) = .ok
      (state.next ((nameOf e).or state.name) (mapping e ((nameOf e).or state.name) state.position)))
    {first : ε} (hfirst : nameOf first ≠ none) (rest : List (Separator × ε)) :
    ∃ mappings, parseMappings mappingOf (printed text first rest) = .ok mappings ∧
      MapsEach nameOf mapping (first :: rest.map Prod.snd) mappings := by
  obtain ⟨state, hfold, hresult⟩ := foldlM_readEntry hread (first :: rest.map Prod.snd)
    { result := [], position := 0, name := none }
  rw [List.nil_append] at hresult
  refine ⟨state.result, ?_, ?_, fun i e he => ?_⟩
  · unfold parseMappings
    rw [← foldlM_flatMap, flatMap_split_printed hne hsep, hfold]
    rfl
  · rw [hresult, length_inherit]
  · obtain ⟨name, hget, ⟨own, rfl, hnear⟩ | ⟨-, hnone⟩⟩ :=
      getElem?_inherit nameOf mapping he none 0
    · refine ⟨own, hnear, ?_⟩
      rw [hresult, hget, Nat.zero_add]
    · have h0 := hnone 0 i.succ_pos
      rw [List.map_cons, List.getElem?_cons_zero, Option.some_inj] at h0
      exact absurd h0 hfirst

end

/-- **The mappings are read back** from the printed entries of clients and of brokers. -/
theorem parse_printed :
    (∀ (first : Entry) (rest : List (Separator × Entry)), first.name ≠ none →
      ∃ mappings, parseClientScenarioMapping (printed Entry.text first rest) = .ok mappings ∧
        MapsEach Entry.name Entry.mapping (first :: rest.map Prod.snd) mappings) ∧
    ∀ (first : BrokerEntry) (rest : List (Separator × BrokerEntry)), first.name ≠ none →
      ∃ mappings, parseBrokerScenarioMapping (printed BrokerEntry.text first rest) = .ok mappings ∧
        MapsEach (fun e => e.toEntry.name) BrokerEntry.mapping (first :: rest.map Prod.snd) mappings := by
  constructor
  · intro first rest hfirst
    exact parseMappings_printed _ Entry.text_ne_nil Entry.not_separator readEntry_client hfirst rest
  · intro first rest hfirst
    have hne : ∀ e : BrokerEntry, e.text ≠ [] := fun e =>
      List.append_ne_nil_of_right_ne_nil _ (List.cons_ne_nil _ _)
    exact parseMappings_printed _ hne BrokerEntry.not_separator readEntry_broker hfirst rest

/-- Three entries, of which the second one has no name: `a#x:1234;y:1235,b#z:-1`. -/
def complicatedBroker : BrokerEntry × List (Separator × BrokerEntry) :=
  ⟨⟨⟨some ['a'], ['x'], by simp [Plain], by simp [Plain]⟩, 1234⟩,
    [(.semicolon, ⟨⟨none, ['y'], nofun, by simp [Plain]⟩, 1235⟩),
      (.comma, ⟨⟨some ['b'], ['z'], by simp [Plain], by simp [Plain]⟩, -1⟩)]⟩

theorem parse_printed_complicatedBroker :
    ∃ mappings, parseBrokerScenarioMapping
        (printed BrokerEntry.text complicatedBroker.1 complicatedBroker.2) = .ok mappings ∧
      MapsEach (fun e => e.toEntry.name) BrokerEntry.mapping
        (complicatedBroker.1 :: complicatedBroker.2.map Prod.snd) mappings :=
  parse_printed.2 _ _ (Option.some_ne_none _)

/-! ### The positions -/

/-- The mappings have their indices as positions. -/
def Numbered {μ : Type} (positionOf : μ → ℕ) (mappings : List μ) : Prop :=
  ∀ i m, mappings[i]? = some m → positionOf m = i

theorem Numbered.concat {μ : Type} {positionOf : μ → ℕ} {mappings : List μ}
    (h : Numbered positionOf mappings) {m : μ} (hm : positionOf m = mappings.length) :
    Numbered positionOf (mappings ++ [m]) := by
  intro i m' hget
  by_cases hi : i < mappings.length
  · rw [List.getElem?_append_left hi] at hget
    exact h i m' hget
  · have hlast : i = mappings.length := by
      have := (List.getElem?_eq_some_iff.mp hget).1
      rw [List.length_append, List.length_singleton] at this
      omega
    rw [hlast, List.getElem?_concat_length] at hget
    rw [← Option.some.inj hget, hm, hlast]

section
variable {μ : Type} {mappingOf : MappingOf μ} {positionOf : μ → ℕ}
  (hposition : ∀ {entry i name position m}, mappingOf entry i name position = .ok m →
    positionOf m = position)
include hposition

/-- One entry. -/
theorem numbered_readEntry {state state' : Parsing μ} {entry : List Char}
    (h : readEntry mappingOf state entry = .ok state')
    (hstate : state.position = state.result.length ∧ Numbered positionOf state.result) :
    state'.position = state'.result.length ∧ Numbered positionOf state'.result := by
  obtain ⟨hlength, hnumbered⟩ := hstate
  obtain ⟨name, -, h⟩ := bind_eq_ok_iff.mp h
  obtain ⟨m, hm, h⟩ := bind_eq_ok_iff.mp h
  obtain rfl := Except.ok.inj h
  refine ⟨?_, hnumbered.concat ((hposition hm).trans hlength)⟩
  rw [List.length_append, List.length_singleton, ← hlength]

theorem numbered_foldlM {entries : List (List Char)} {state state' : Parsing μ}
    (h : entries.foldlM (readEntry mappingOf) state = .ok state')
    (hstate : state.position = state.result.length ∧ Numbered positionOf state.result) :
    state'.position = state'.result.length ∧ Numbered positionOf state'.result := by
  induction entries generalizing state with
  | nil => rwa [← Except.ok.inj h]
  | cons entry entries ih =>
    obtain ⟨next, hread, hfold⟩ := bind_eq_ok_iff.mp h
    exact ih hfold (numbered_readEntry hposition hread hstate)

/-- **Whatever is parsed is numbered.** -/
theorem numbered_parseMappings {toParse : List Char} {mappings : List μ}
    (h : parseMappings mappingOf toParse = .ok mappings) : Numbered positionOf mappings := by
  obtain ⟨state, hfold, h⟩ := bind_eq_ok_iff.mp h
  rw [← foldlM_flatMap] at hfold
  obtain rfl := Except.ok.inj h
  exact (numbered_foldlM hposition hfold ⟨rfl, fun i m hget => nomatch hget⟩).2

end

/-- The mappings of the clients have their indices as positions, in every configuration. -/
theorem numbered_parseClientScenarioMapping {toParse : List Char}
    {mappings : List ClientScenarioMapping} (h : parseClientScenarioMapping toParse = .ok mappings) :
    Numbered (fun m => m.position) mappings := by
  refine numbered_parseMappings (fun hm => ?_) h
  obtain ⟨host, -, hm⟩ := bind_eq_ok_iff.mp hm
  rw [← Except.ok.inj hm]

end Mlmq.Common.Configuration
