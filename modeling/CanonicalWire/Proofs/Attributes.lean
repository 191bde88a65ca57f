import CanonicalWire.Derive.Attribute
import CanonicalWire.Proofs.Libraries

/-!
Attributes and declarations. A derived implementation reads a field's directives from literals, a declaration is
read from text, and each has its own rules for what may come again and in which order it is looked at. Where the
literals have a plain text the two agree.
-/

namespace CanonicalWire

namespace Derive

/-! ### Literals -/

namespace Literal

/-- A literal of decimal digits only. -/
def IsDecimal (l : Literal) : Prop :=
  ∃ s : String, s ≠ "" ∧ (∀ c ∈ s.toList, isDigit c = true) ∧ l = ofSpelling s

/-- A string that a declaration can hold: no comma, no white space at the ends. -/
def IsPlainText (l : Literal) : Prop :=
  ∃ s : String, ',' ∉ s.toList ∧ trim s.toList = s.toList ∧ l = .text s

theorem plain_kept {l : Literal} (h : l.IsDecimal ∨ l.IsPlainText) :
    ',' ∉ l.kept.toList ∧ trim l.kept.toList = l.kept.toList := by
  rcases h with ⟨s, hne, hdigits, rfl⟩ | ⟨s, hcomma, htrim, rfl⟩
  · rw [ofSpelling_digits hne hdigits]
    exact ⟨fun hmem => absurd (hdigits _ hmem) (by decide),
      trim_of_all fun c hc => isWhiteSpace_of_isDigit (hdigits c hc)⟩
  · exact ⟨hcomma, htrim⟩

end Literal

/-! ### Entries -/

/-- An entry of an attribute: a key, perhaps with a literal. -/
abbrev Entry := String × Option Literal

namespace Entry

/-- The entry as part of a declaration. -/
def text (entry : Entry) : String :=
  match entry.2 with
  | none => entry.1
  | some literal => entry.1 ++ "=" ++ literal.kept

/-- The entry as the token that its text is read as. -/
def token (entry : Entry) : Token := ⟨entry.1, entry.2.map Literal.kept⟩

/-- An entry that a declaration can hold. The key is a name, a length is decimal, a group is a string. -/
structure IsPlain (entry : Entry) : Prop where
  key_ne : entry.1 ≠ ""
  key_chars : ∀ c ∈ entry.1.toList, c ≠ ',' ∧ c ≠ '=' ∧ isWhiteSpace c = false
  literal : ∀ l ∈ entry.2, l.IsDecimal ∨ l.IsPlainText
  len : entry.1 = "len" → ∀ l ∈ entry.2, l.IsDecimal
  enum : entry.1 = "enum" → ∀ l ∈ entry.2, l.IsPlainText

variable {entry : Entry} (h : entry.IsPlain)
include h

theorem IsPlain.comma_not_mem_text : ',' ∉ entry.text.toList := by
  obtain ⟨key, literal⟩ := entry
  have hkey : ',' ∉ key.toList := fun hmem => (h.key_chars _ hmem).1 rfl
  cases literal with
  | none => exact hkey
  | some l =>
      have hl := (Literal.plain_kept (h.literal l rfl)).1
      simp [text, hkey, hl]

theorem IsPlain.trim_text : trim entry.text.toList = entry.text.toList := by
  obtain ⟨key, literal⟩ := entry
  have hkey : ∀ c ∈ key.toList, isWhiteSpace c = false := fun c hc => (h.key_chars c hc).2.2
  cases literal with
  | none => exact trim_of_all hkey
  | some l =>
      obtain ⟨-, hlast⟩ := trim_eq_self_iff.mp (Literal.plain_kept (h.literal l rfl)).2
      have htext : (text (key, some l)).toList = key.toList ++ '=' :: l.kept.toList := by simp [text]
      have hne : key.toList ≠ [] := by simpa using h.key_ne
      rw [htext, trim_eq_self_iff]
      constructor
      · intro c hc
        rw [List.head?_append_of_ne_nil _ hne] at hc
        exact hkey c (List.mem_of_mem_head? hc)
      · intro c hc
        rw [List.getLast?_append_of_ne_nil _ (List.cons_ne_nil _ _), List.getLast?_cons] at hc
        cases hkept : l.kept.toList.getLast? with
        | none =>
            obtain rfl : '=' = c := by simpa [hkept] using hc
            decide
        | some e =>
            obtain rfl : e = c := by simpa [hkept] using hc
            exact hlast e hkept

theorem IsPlain.text_ne : entry.text ≠ "" := by
  obtain ⟨key, literal⟩ := entry
  have hkey : key ≠ "" := h.key_ne
  cases literal with
  | none => exact hkey
  | some l => simp [text, hkey]

theorem IsPlain.ofChars_text : Token.ofChars entry.text.toList = entry.token := by
  obtain ⟨key, literal⟩ := entry
  have hequals : '=' ∉ key.toList := fun hmem => (h.key_chars _ hmem).2.1 rfl
  have hkey : trim key.toList = key.toList := trim_of_all fun c hc => (h.key_chars c hc).2.2
  cases literal with
  | none =>
      have hsplit : splitFirst? '=' key.toList = none := splitFirst?_of_not_mem hequals
      simp [text, token, Token.ofChars, hsplit]
  | some l =>
      have hl := (Literal.plain_kept (h.literal l rfl)).2
      have hsplit : splitFirst? '=' (text (key, some l)).toList = some (key.toList, l.kept.toList) := by
        simpa [text] using splitFirst?_append hequals l.kept.toList
      simp [token, Token.ofChars, hsplit, hkey, hl]

end Entry

/-! ### One more entry -/

namespace Reading

variable {d d' : Directives} {literal : Option Literal}

theorem flag_eq_ok {set : Directives} {e : DeriveError} :
    (match literal with
      | none => .ok set
      | some _ => .error e) = Except.ok d' ↔ literal = none ∧ d' = set := by
  cases literal with
  | none => exact ⟨fun h => ⟨rfl, (Except.ok.inj h).symm⟩, fun h => congrArg Except.ok h.2.symm⟩
  | some l => exact ⟨nofun, nofun⟩

theorem interpret_optional_eq_ok :
    interpret d "optional" literal = .ok d' ↔ literal = none ∧ d' = { d with optional := true } := flag_eq_ok

theorem interpret_skip_eq_ok :
    interpret d "skip" literal = .ok d' ↔ literal = none ∧ d' = { d with skip := true } := flag_eq_ok

theorem lengthOf_eq_ok {negative : Bool} {magnitude n : Nat} :
    lengthOf negative magnitude = .ok n ↔ negative = false ∧ magnitude < lengthBound ∧ n = magnitude := by
  unfold lengthOf
  cases negative with
  | true => exact ⟨nofun, nofun⟩
  | false =>
      by_cases hlt : magnitude < lengthBound
      · simp [hlt, eq_comm]
      · simp [hlt]

theorem interpret_len_eq_ok :
    interpret d "len" literal = .ok d' ↔ ∃ spelling n, literal = some (.integer false spelling n) ∧
      n < lengthBound ∧ d' = { d with fixedLen := some n } := by
  constructor
  · intro h
    match literal, h with
    | some (.integer negative spelling magnitude), h =>
        obtain ⟨n, hn, rfl⟩ := map_eq_ok.mp h
        obtain ⟨rfl, hlt, rfl⟩ := lengthOf_eq_ok.mp hn
        exact ⟨spelling, n, rfl, hlt, rfl⟩
  · rintro ⟨spelling, n, rfl, hlt, rfl⟩
    exact map_eq_ok.mpr ⟨n, lengthOf_eq_ok.mpr ⟨rfl, hlt, rfl⟩, rfl⟩

theorem interpret_enum_eq_ok :
    interpret d "enum" literal = .ok d' ↔ ∃ group, literal = some (.text group) ∧ group ≠ "" ∧
      d' = { d with enumGroup := some group } := by
  constructor
  · intro h
    match literal, h with
    | some (.text group), h =>
        have hgroup : group ≠ "" := by
          rintro rfl
          cases h
        exact ⟨group, rfl, hgroup, (Except.ok.inj ((if_neg hgroup).symm.trans h)).symm⟩
  · rintro ⟨group, rfl, hgroup, rfl⟩
    exact if_neg hgroup

theorem interpret_of_not_known {key : String} (h : key ∉ knownKeys) :
    interpret d key literal = .ok { d with unknown := d.unknown ++ [(key, literal.map Literal.kept)] } := by
  obtain ⟨hoptional, hskip, hlen, henum⟩ := not_mem_knownKeys.mp h
  unfold interpret
  rw [if_neg hoptional, if_neg hskip, if_neg hlen, if_neg henum]

/-- Reading a key that means something is what it takes to have read it. -/
theorem declares_interpret {key known : String} (h : interpret d key literal = .ok d') (hknown : known ∈ knownKeys) :
    d'.declares known = true ↔ d.declares known = true ∨ known = key := by
  by_cases hkey : key ∈ knownKeys
  · rw [mem_knownKeys] at hknown
    rcases mem_knownKeys.mp hkey with rfl | rfl | rfl | rfl
    · obtain ⟨-, rfl⟩ := interpret_optional_eq_ok.mp h
      rcases hknown with rfl | rfl | rfl | rfl <;> simp
    · obtain ⟨-, rfl⟩ := interpret_skip_eq_ok.mp h
      rcases hknown with rfl | rfl | rfl | rfl <;> simp
    · obtain ⟨_, _, -, -, rfl⟩ := interpret_len_eq_ok.mp h
      rcases hknown with rfl | rfl | rfl | rfl <;> simp
    · obtain ⟨_, -, -, rfl⟩ := interpret_enum_eq_ok.mp h
      rcases hknown with rfl | rfl | rfl | rfl <;> simp
  · rw [interpret_of_not_known hkey] at h
    obtain rfl := Except.ok.inj h
    have hne : known ≠ key := fun heq => hkey (heq ▸ hknown)
    simp only [hne, or_false]
    rfl

end Reading

/-- A token says what the entry says, except that it may not come again if it means something. -/
theorem Entry.IsPlain.add_token_eq_ok {entry : Entry} (h : entry.IsPlain) {d d' : Directives} :
    d.add entry.token = .ok d' ↔ d.declares entry.1 = false ∧ Reading.interpret d entry.1 entry.2 = .ok d' := by
  obtain ⟨key, literal⟩ := entry
  by_cases hkey : key ∈ knownKeys
  · rcases mem_knownKeys.mp hkey with rfl | rfl | rfl | rfl
    · rw [token, Directives.add_optional_eq_ok, Reading.interpret_optional_eq_ok]
      simp [and_left_comm]
    · rw [token, Directives.add_skip_eq_ok, Reading.interpret_skip_eq_ok]
      simp [and_left_comm]
    · rw [token, Directives.add_len_eq_ok, Reading.interpret_len_eq_ok]
      cases literal with
      | none => simp
      | some l =>
          obtain ⟨s, hne, hdigits, rfl⟩ := h.len rfl l rfl
          rw [Literal.ofSpelling_digits hne hdigits]
          have hcs : s.toList ≠ [] := by simpa using hne
          simp [Literal.kept, Literal.spaced, readLength?_digits hcs hdigits, hne, and_assoc]
    · rw [token, Directives.add_enum_eq_ok, Reading.interpret_enum_eq_ok]
      cases literal with
      | none => simp
      | some l =>
          obtain ⟨s, -, -, rfl⟩ := h.enum rfl l rfl
          simpa [Literal.kept] using and_left_comm
  · simp [token, Directives.add_of_not_known hkey, Reading.interpret_of_not_known hkey,
      Directives.declares_of_not_known hkey]

namespace Reading

theorem add_eq_ok {r r' : Reading} {entry : Entry} :
    r.add entry = .ok r' ↔ entry.1 ∉ r.seen ∧ interpret r.directives entry.1 entry.2 = .ok r'.directives ∧
      r'.seen = r.seen ++ [entry.1] := by
  obtain ⟨d', seen'⟩ := r'
  unfold add
  by_cases hseen : entry.1 ∈ r.seen
  · simp [hseen]
  · rw [if_neg (by simpa using hseen), map_eq_ok]
    constructor
    · rintro ⟨d, hd, ⟨⟩⟩
      exact ⟨hseen, hd, rfl⟩
    · rintro ⟨-, hd, rfl⟩
      exact ⟨d', hd, rfl⟩

/-- Of the keys that mean something, those seen are those read. -/
def Tracks (r : Reading) : Prop := ∀ key ∈ knownKeys, key ∈ r.seen ↔ r.directives.declares key = true

theorem tracks_add {r r' : Reading} {entry : Entry} (h : r.Tracks) (hadd : r.add entry = .ok r') : r'.Tracks := by
  obtain ⟨-, hinterpret, hseen⟩ := add_eq_ok.mp hadd
  intro key hkey
  rw [hseen, declares_interpret hinterpret hkey, List.mem_append, List.mem_singleton, h key hkey]

theorem tracks_foldlM {entries : List Entry} {r : Reading} (h : entries.foldlM add {} = .ok r) : r.Tracks := by
  have hstart : Tracks {} := by simp [Tracks, knownKeys]
  exact foldlM_invariant (P := fun _ r => Tracks r) tracks_add hstart h

/-- An entry is accepted as its token is, unless its key means nothing and has been seen. -/
theorem add_eq_ok_iff_token {r r' : Reading} {entry : Entry} (h : r.Tracks) (hplain : entry.IsPlain) :
    r.add entry = .ok r' ↔ (entry.1 ∉ knownKeys → entry.1 ∉ r.seen) ∧
      r.directives.add entry.token = .ok r'.directives ∧ r'.seen = r.seen ++ [entry.1] := by
  rw [add_eq_ok, hplain.add_token_eq_ok]
  by_cases hkey : entry.1 ∈ knownKeys
  · -- Seen means declared here, so either way the key is refused when it comes again.
    rw [h _ hkey, Bool.not_eq_true]
    tauto
  · simp [hkey, Directives.declares_of_not_known]

/-! ### All entries -/

/-- The keys that mean nothing. -/
def unknownKeys (keys : List String) : List String := keys.filter (· ∉ knownKeys)

theorem nodup_unknownKeys_concat {keys : List String} {key : String} :
    (unknownKeys (keys ++ [key])).Nodup ↔ (unknownKeys keys).Nodup ∧ (key ∉ knownKeys → key ∉ keys) := by
  rw [unknownKeys, List.filter_append, ← unknownKeys]
  by_cases hkey : key ∈ knownKeys
  · simp [hkey]
  · have hfilter : [key].filter (· ∉ knownKeys) = [key] := by simp [hkey]
    have hmem : key ∈ unknownKeys keys ↔ key ∈ keys := by simp [unknownKeys, hkey]
    rw [hfilter, List.nodup_append_comm, List.singleton_append, List.nodup_cons, hmem]
    tauto

/-- Entries are accepted as their tokens are, unless a key that means nothing comes again. -/
theorem foldlM_add_eq_ok {entries : List Entry} (hplain : ∀ entry ∈ entries, entry.IsPlain) {r : Reading} :
    entries.foldlM add {} = .ok r ↔ (entries.map Entry.token).foldlM Directives.add {} = .ok r.directives ∧
      r.seen = entries.map (·.1) ∧ (unknownKeys (entries.map (·.1))).Nodup := by
  -- From the end, so that what has been seen at the last entry are the keys before it.
  induction entries using List.reverseRecOn generalizing r with
  | nil =>
      obtain ⟨d, seen⟩ := r
      simp [unknownKeys, pure, Except.pure, eq_comm]
  | append_singleton entries entry ih =>
      have hentries : ∀ entry ∈ entries, entry.IsPlain := fun e he => hplain e (List.mem_append_left _ he)
      have hentry : entry.IsPlain := hplain entry (by simp)
      simp only [List.map_append, List.map_cons, List.map_nil, List.foldlM_append, List.foldlM_cons, List.foldlM_nil,
        bind_pure, nodup_unknownKeys_concat]
      rw [bind_eq_ok, bind_eq_ok]
      constructor
      · rintro ⟨t, ht, hr⟩
        obtain ⟨hd, hseen, hnodup⟩ := (ih hentries).mp ht
        obtain ⟨hnew, hadd, hseen'⟩ := (add_eq_ok_iff_token (tracks_foldlM ht) hentry).mp hr
        exact ⟨⟨_, hd, hadd⟩, by rw [hseen', hseen], hnodup, hseen ▸ hnew⟩
      · rintro ⟨⟨d, hd, hadd⟩, hseen, hnodup, hnew⟩
        have ht := (ih hentries (r := ⟨d, entries.map (·.1)⟩)).mpr ⟨hd, rfl, hnodup⟩
        exact ⟨_, ht, (add_eq_ok_iff_token (tracks_foldlM ht) hentry).mpr ⟨hnew, hadd, hseen⟩⟩

end Reading

namespace Field

/-- The entries of all attributes that declare directives. -/
def entries (f : Field) : List Entry :=
  (f.attributes.filter (·.path = attributePath)).flatMap fun a => a.entries.getD []

/-- The entries as a declaration. -/
def declaration (f : Field) : String := ",".intercalate (f.entries.map Entry.text)

theorem foldlM_addAttribute {attributes : List Attribute}
    (h : ∀ a ∈ attributes, a.path = attributePath → a.entries ≠ none) (r : Reading) :
    attributes.foldlM Reading.addAttribute r =
      ((attributes.filter (·.path = attributePath)).flatMap fun a => a.entries.getD []).foldlM Reading.add r := by
  induction attributes generalizing r with
  | nil => rfl
  | cons a attributes ih =>
      obtain ⟨ha, hattributes⟩ := List.forall_mem_cons.mp h
      rw [List.foldlM_cons, Reading.addAttribute]
      by_cases hpath : a.path = attributePath
      · obtain ⟨entries, hentries⟩ := Option.ne_none_iff_exists'.mp (ha hpath)
        simp only [hpath, if_true, hentries, List.filter_cons, decide_true, List.flatMap_cons, Option.getD_some,
          List.foldlM_append]
        exact bind_congr fun r => ih hattributes r
      · simp only [hpath, if_false, List.filter_cons, decide_false, Bool.false_eq_true]
        exact ih hattributes r

theorem parse_declaration {f : Field} (hplain : ∀ entry ∈ f.entries, entry.IsPlain) :
    Directives.parse f.declaration = (f.entries.map Entry.token).foldlM Directives.add {} := by
  have htokens : tokens f.declaration = (f.entries.map Entry.text).map fun part => Token.ofChars part.toList := by
    refine tokens_intercalate ?_ ?_ ?_
    · exact List.forall_mem_map.mpr fun entry h => (hplain entry h).comma_not_mem_text
    · exact List.forall_mem_map.mpr fun entry h => (hplain entry h).trim_text
    · exact List.forall_mem_map.mpr fun entry h => (hplain entry h).text_ne
  rw [Directives.parse, htokens, List.map_map]
  congr 1
  exact List.map_congr_left fun entry h => (hplain entry h).ofChars_text

/-- A field's directives are those of its entries as a declaration, where no key that means nothing comes again
and only an option is optional. -/
theorem directives_eq_ok_iff_parse {f : Field}
    (hentries : ∀ a ∈ f.attributes, a.path = attributePath → a.entries ≠ none)
    (hplain : ∀ entry ∈ f.entries, entry.IsPlain) {d : Directives} :
    f.directives = .ok d ↔ Directives.parse f.declaration = .ok d ∧
      (Reading.unknownKeys (f.entries.map (·.1))).Nodup ∧
      ("optional" ∈ f.entries.map (·.1) → lastSegment? f.type = some "Option") := by
  rw [parse_declaration hplain, directives, foldlM_addAttribute hentries, bind_eq_ok]
  constructor
  · rintro ⟨r, hr, hd⟩
    obtain ⟨hparse, hseen, hnodup⟩ := (Reading.foldlM_add_eq_ok hplain).mp hr
    obtain ⟨hoption, hd⟩ := throw_if_eq_ok.mp hd
    obtain rfl := Except.ok.inj hd
    refine ⟨hparse, hnodup, fun hmem => ?_⟩
    have hoptional : r.directives.optional = true :=
      (Reading.tracks_foldlM hr "optional" (by decide)).mp (hseen ▸ hmem)
    simpa [hoptional, isOptionType] using hoption
  · rintro ⟨hparse, hnodup, hoption⟩
    have hr := (Reading.foldlM_add_eq_ok hplain (r := ⟨d, f.entries.map (·.1)⟩)).mpr ⟨hparse, rfl, hnodup⟩
    refine ⟨_, hr, throw_if_eq_ok.mpr ⟨?_, rfl⟩⟩
    cases hoptional : d.optional with
    | false => simp
    | true =>
        have hmem := (Reading.tracks_foldlM hr "optional" (by decide)).mpr hoptional
        simp [isOptionType, hoption hmem]

section Notes

/-- Directives in two attributes, with another attribute between them. -/
def noteField : Field where
  type := "Option<String>"
  attributes := [⟨"canon", some [("optional", none), ("len", some (.ofSpelling "007"))]⟩, ⟨"doc", none⟩,
    ⟨"canon", some [("enum", some (.text "Msg")), ("since", some (.text "a = b"))]⟩]

def noteDirectives : Directives where
  optional := true
  fixedLen := some 7
  enumGroup := some "Msg"
  unknown := [("since", some "a = b")]

theorem directives_eq_ok_iff_parse_note :
    noteField.declaration = "optional,len=007,enum=Msg,since=a = b" ∧
      noteField.directives = .ok noteDirectives ∧ Directives.parse noteField.declaration = .ok noteDirectives := by
  have hoption : lastSegment? noteField.type = some "Option" := by decide +kernel
  have hparse : Directives.parse noteField.declaration = .ok noteDirectives := by rfl
  have hentries : ∀ a ∈ noteField.attributes, a.path = attributePath → a.entries ≠ none := by decide
  have hkeys : (noteField.entries.all fun entry => entry.1 ≠ "" &&
      entry.1.toList.all fun c => c ≠ ',' && c ≠ '=' && !isWhiteSpace c) = true := by decide
  have hlen : (Literal.ofSpelling "007").IsDecimal := ⟨"007", by decide, by simp [isDigit], rfl⟩
  have hgroup : (Literal.text "Msg").IsPlainText := ⟨"Msg", by decide, by decide, rfl⟩
  have hsince : (Literal.text "a = b").IsPlainText := ⟨"a = b", by decide, by decide, rfl⟩
  have hplain : ∀ entry ∈ noteField.entries, entry.IsPlain := by
    intro entry hentry
    obtain ⟨hne, hchars⟩ : entry.1 ≠ "" ∧ ∀ c ∈ entry.1.toList, c ≠ ',' ∧ c ≠ '=' ∧ isWhiteSpace c = false := by
      simpa [and_assoc] using List.all_eq_true.mp hkeys entry hentry
    have hcases : entry = ("optional", none) ∨ entry = ("len", some (.ofSpelling "007")) ∨
        entry = ("enum", some (.text "Msg")) ∨ entry = ("since", some (.text "a = b")) := by
      simpa [entries, noteField, attributePath] using hentry
    rcases hcases with rfl | rfl | rfl | rfl <;> exact ⟨hne, hchars, by simp [*], by simp [*], by simp [*]⟩
  exact ⟨rfl, (directives_eq_ok_iff_parse hentries hplain).mpr ⟨hparse, by decide, fun _ => hoption⟩, hparse⟩

end Notes

end Field

end Derive

end CanonicalWire
