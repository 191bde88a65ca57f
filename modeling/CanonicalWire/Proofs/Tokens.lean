import CanonicalWire.Directive
import CanonicalWire.Proofs.Outcomes
import Mathlib.Data.List.DropRight
import Mathlib.Data.List.Forall2
import Mathlib.Data.List.Induction
import Mathlib.Data.Nat.Digits.Defs

/-!
Declarations as tokens. A text put together from parts that hold no separator is cut into these parts again, and
each token is accepted under a condition of its own on what has been read before.
-/

namespace CanonicalWire

/-! ### Trimming -/

theorem trim_eq_rdropWhile (cs : List Char) : trim cs = (cs.dropWhile isWhiteSpace).rdropWhile isWhiteSpace := rfl

/-- Nothing is trimmed off exactly if there is no white space at either end. -/
theorem trim_eq_self_iff {cs : List Char} :
    trim cs = cs ↔ (∀ c ∈ cs.head?, isWhiteSpace c = false) ∧ ∀ c ∈ cs.getLast?, isWhiteSpace c = false := by
  have hhead : cs.dropWhile isWhiteSpace = cs ↔ ∀ c ∈ cs.head?, isWhiteSpace c = false := by
    cases cs <;> simp [List.dropWhile_eq_self_iff]
  have hlast : cs.rdropWhile isWhiteSpace = cs ↔ ∀ c ∈ cs.getLast?, isWhiteSpace c = false := by
    by_cases hcs : cs = []
    · simp [hcs]
    · simp [List.rdropWhile_eq_self_iff, List.getLast?_eq_some_getLast hcs, hcs]
  rw [← hhead, ← hlast, trim_eq_rdropWhile]
  constructor
  · intro h
    have hdrop : cs.dropWhile isWhiteSpace = cs := by
      refine (List.dropWhile_suffix _).eq_of_length_le ?_
      calc cs.length = ((cs.dropWhile isWhiteSpace).rdropWhile isWhiteSpace).length := by rw [h]
        _ ≤ (cs.dropWhile isWhiteSpace).length := (List.rdropWhile_prefix isWhiteSpace _).length_le
    exact ⟨hdrop, by rwa [hdrop] at h⟩
  · rintro ⟨hdrop, hrdrop⟩
    rw [hdrop, hrdrop]

/-- A text without the white space that stands at its ends. -/
def IsTrimmed (cs middle : List Char) : Prop :=
  ∃ before after, cs = before ++ middle ++ after ∧ (∀ c ∈ before, isWhiteSpace c = true) ∧
    (∀ c ∈ after, isWhiteSpace c = true) ∧ (∀ c ∈ middle.head?, isWhiteSpace c = false) ∧
    ∀ c ∈ middle.getLast?, isWhiteSpace c = false

theorem isTrimmed_trim (cs : List Char) : IsTrimmed cs (trim cs) := by
  have hprefix := List.rdropWhile_prefix isWhiteSpace (cs.dropWhile isWhiteSpace)
  refine ⟨cs.takeWhile isWhiteSpace, (cs.dropWhile isWhiteSpace).rtakeWhile isWhiteSpace, ?_, ?_, ?_, ?_, ?_⟩
  · rw [trim_eq_rdropWhile, List.append_assoc, List.rdropWhile_append_rtakeWhile, List.takeWhile_append_dropWhile]
  · exact fun c hc => List.mem_takeWhile_imp hc
  · exact fun c hc => List.mem_rtakeWhile_imp hc
  · intro c hc
    obtain ⟨rest, hrest⟩ := hprefix
    rw [trim_eq_rdropWhile] at hc
    have hhead := List.head?_dropWhile_not isWhiteSpace cs
    rw [← hrest, List.head?_append, hc] at hhead
    exact hhead
  · intro c hc
    obtain ⟨hne, rfl⟩ := List.mem_getLast?_eq_getLast hc
    exact Bool.eq_false_iff.mpr (List.rdropWhile_last_not isWhiteSpace _ hne)

theorem trim_of_all {cs : List Char} (h : ∀ c ∈ cs, isWhiteSpace c = false) : trim cs = cs :=
  trim_eq_self_iff.mpr ⟨fun _ hc => h _ (List.mem_of_mem_head? hc), fun _ hc => h _ (List.mem_of_mem_getLast? hc)⟩

/-! ### Digits -/

theorem isDigit_iff {c : Char} : isDigit c = true ↔ 48 ≤ c.toNat ∧ c.toNat ≤ 57 := by
  simp [isDigit, Char.le_def, UInt32.le_iff_toNat_le]

theorem isWhiteSpace_of_isDigit {c : Char} (h : isDigit c = true) : isWhiteSpace c = false := by
  have hdigit := isDigit_iff.mp h
  have hapart : ∀ r ∈ whiteSpaceRanges, ¬(r.1 ≤ 57 ∧ 48 ≤ r.2) := by decide
  rw [isWhiteSpace, List.any_eq_false]
  intro r hr
  have hrange := hapart r hr
  simp only [Bool.and_eq_true, decide_eq_true_eq]
  omega

/-- Digits denote a number in base ten, the first with the greatest weight. -/
theorem decimalValue_eq_ofDigits (cs : List Char) :
    decimalValue cs = Nat.ofDigits 10 (cs.reverse.map fun c => c.toNat - '0'.toNat) := by
  induction cs using List.reverseRecOn with
  | nil => rfl
  | append_singleton cs c ih =>
      rw [decimalValue, List.foldl_append, List.foldl_cons, List.foldl_nil, ← decimalValue, ih, List.reverse_append,
        List.reverse_singleton, List.singleton_append, List.map_cons, Nat.ofDigits_cons, Nat.add_comm]
      rfl

theorem readLength?_digits {cs : List Char} (hne : cs ≠ []) (h : ∀ c ∈ cs, isDigit c = true) :
    readLength? cs = if decimalValue cs < lengthBound then some (decimalValue cs) else none := by
  have hread : readNat? cs = some (decimalValue cs) := if_pos ⟨hne, List.all_eq_true.mpr h⟩
  unfold readLength?
  split
  · exact absurd (h '+' (List.mem_cons_self ..)) (by decide)
  · simp [hread, Option.filter]

theorem readNat?_filter_eq_some {cs : List Char} {n : Nat} :
    (readNat? cs).filter (· < lengthBound) = some n ↔
      cs ≠ [] ∧ (∀ c ∈ cs, isDigit c = true) ∧ decimalValue cs = n ∧ n < lengthBound := by
  rw [Option.filter_eq_some_iff, readNat?]
  split
  case isTrue h =>
    have hdigits := List.all_eq_true.mp h.2
    constructor
    · rintro ⟨hn, hbound⟩
      exact ⟨h.1, hdigits, Option.some.inj hn, of_decide_eq_true hbound⟩
    · rintro ⟨-, -, hn, hbound⟩
      exact ⟨congrArg some hn, decide_eq_true hbound⟩
  case isFalse h =>
    constructor
    · rintro ⟨hn, -⟩
      cases hn
    · rintro ⟨hne, hdigits, -⟩
      exact absurd ⟨hne, List.all_eq_true.mpr hdigits⟩ h

/-- The digits of a length follow its plus sign, if there is one. -/
theorem readLength?_cases (cs : List Char) : ∃ digits, (cs = digits ∨ cs = '+' :: digits) ∧
    readLength? cs = (readNat? digits).filter (· < lengthBound) := by
  unfold readLength?
  split
  · exact ⟨_, .inr rfl, rfl⟩
  · exact ⟨_, .inl rfl, rfl⟩

/-! ### Cutting -/

theorem splitParts_of_not_mem {separator : Char} {part : List Char} (h : separator ∉ part) :
    splitParts separator part = [part] := by
  induction part with
  | nil => rfl
  | cons c part ih =>
      obtain ⟨hc, hpart⟩ := not_or.mp (mt List.mem_cons.mpr h)
      rw [splitParts, if_neg (Ne.symm hc), ih hpart]

theorem splitParts_append {separator : Char} {part : List Char} (h : separator ∉ part) (rest : List Char) :
    splitParts separator (part ++ separator :: rest) = part :: splitParts separator rest := by
  induction part with
  | nil => simp [splitParts]
  | cons c part ih =>
      obtain ⟨hc, hpart⟩ := not_or.mp (mt List.mem_cons.mpr h)
      rw [List.cons_append, splitParts, if_neg (Ne.symm hc), ih hpart]

/-- Cutting undoes putting separators between parts. -/
theorem splitParts_intercalate {separator : Char} {parts : List (List Char)} (hne : parts ≠ [])
    (h : ∀ part ∈ parts, separator ∉ part) : splitParts separator ([separator].intercalate parts) = parts := by
  induction parts with
  | nil => exact absurd rfl hne
  | cons part parts ih =>
      obtain ⟨hpart, hparts⟩ := List.forall_mem_cons.mp h
      cases parts with
      | nil => simpa using splitParts_of_not_mem hpart
      | cons next parts =>
          rw [List.intercalate_cons_cons, List.append_assoc, List.singleton_append, splitParts_append hpart,
            ih (List.cons_ne_nil _ _) hparts]

theorem splitParts_ne_nil (separator : Char) (cs : List Char) : splitParts separator cs ≠ [] := by
  fun_cases splitParts separator cs <;> exact List.cons_ne_nil _ _

/-- A character that does not separate goes to the first part. -/
theorem splitParts_cons {separator c : Char} (hc : c ≠ separator) (cs : List Char) :
    ∃ part parts, splitParts separator cs = part :: parts ∧
      splitParts separator (c :: cs) = (c :: part) :: parts := by
  obtain ⟨part, parts, hsplit⟩ := List.exists_cons_of_ne_nil (splitParts_ne_nil separator cs)
  exact ⟨part, parts, hsplit, by rw [splitParts, if_neg hc, hsplit]⟩

theorem not_mem_of_mem_splitParts {separator : Char} {cs : List Char} :
    ∀ part ∈ splitParts separator cs, separator ∉ part := by
  induction cs with
  | nil => simp [splitParts]
  | cons c cs ih =>
      by_cases hc : c = separator
      · rw [splitParts, if_pos hc]
        exact List.forall_mem_cons.mpr ⟨List.not_mem_nil, ih⟩
      · obtain ⟨part, parts, hsplit, hcons⟩ := splitParts_cons hc cs
        rw [hsplit] at ih
        obtain ⟨hpart, hparts⟩ := List.forall_mem_cons.mp ih
        rw [hcons]
        exact List.forall_mem_cons.mpr ⟨List.not_mem_cons_of_ne_of_not_mem (Ne.symm hc) hpart, hparts⟩

/-- The parts with separators between them are the text that was cut. -/
theorem intercalate_splitParts (separator : Char) (cs : List Char) :
    [separator].intercalate (splitParts separator cs) = cs := by
  induction cs with
  | nil => rfl
  | cons c cs ih =>
      by_cases hc : c = separator
      · obtain ⟨part, parts, hsplit⟩ := List.exists_cons_of_ne_nil (splitParts_ne_nil separator cs)
        rw [splitParts, if_pos hc, hsplit, List.intercalate_cons_cons, ← hsplit, ih, hc]
        rfl
      · obtain ⟨part, parts, hsplit, hcons⟩ := splitParts_cons hc cs
        rw [hsplit] at ih
        rw [hcons, ← ih]
        cases parts with
        | nil => simp
        | cons next parts => simp [List.intercalate_cons_cons]

theorem splitFirst?_of_not_mem {separator : Char} {cs : List Char} (h : separator ∉ cs) :
    splitFirst? separator cs = none := by
  induction cs with
  | nil => rfl
  | cons c cs ih =>
      obtain ⟨hc, hcs⟩ := not_or.mp (mt List.mem_cons.mpr h)
      rw [splitFirst?, if_neg (Ne.symm hc), ih hcs, Option.map_none]

theorem splitFirst?_append {separator : Char} {before : List Char} (h : separator ∉ before) (after : List Char) :
    splitFirst? separator (before ++ separator :: after) = some (before, after) := by
  induction before with
  | nil => simp [splitFirst?]
  | cons c before ih =>
      obtain ⟨hc, hbefore⟩ := not_or.mp (mt List.mem_cons.mpr h)
      rw [List.cons_append, splitFirst?, if_neg (Ne.symm hc), ih hbefore, Option.map_some]

/-- A text without separator is not cut, and any other is cut at its first one. -/
theorem splitFirst?_cases (separator : Char) (cs : List Char) :
    (separator ∉ cs ∧ splitFirst? separator cs = none) ∨ ∃ before after, cs = before ++ separator :: after ∧
      separator ∉ before ∧ splitFirst? separator cs = some (before, after) := by
  by_cases hmem : separator ∈ cs
  · obtain ⟨before, after, rfl, hbefore⟩ := List.eq_append_cons_of_mem hmem
    exact .inr ⟨before, after, rfl, hbefore, splitFirst?_append hbefore after⟩
  · exact .inl ⟨hmem, splitFirst?_of_not_mem hmem⟩

/-! ### Tokens -/

/-- A text as a token: it is cut at its first equals sign, and what stands on both sides is trimmed. -/
inductive IsToken : List Char → Token → Prop
  | key {cs : List Char} (h : '=' ∉ cs) : IsToken cs ⟨String.ofList cs, none⟩
  | pair {before after key value : List Char} (h : '=' ∉ before) (hkey : IsTrimmed before key)
      (hvalue : IsTrimmed after value) :
      IsToken (before ++ '=' :: after) ⟨String.ofList key, some (String.ofList value)⟩

theorem isToken_ofChars (cs : List Char) : IsToken cs (Token.ofChars cs) := by
  rcases splitFirst?_cases '=' cs with ⟨hmem, hsplit⟩ | ⟨before, after, rfl, hbefore, hsplit⟩
  · rw [Token.ofChars, hsplit]
    exact .key hmem
  · rw [Token.ofChars, hsplit]
    exact .pair hbefore (isTrimmed_trim before) (isTrimmed_trim after)

/-- A declaration as tokens: it consists of parts between commas, of which those that are not blank are tokens
once they are trimmed. -/
def Tokenizes (declaration : String) (ts : List Token) : Prop :=
  ∃ parts texts, declaration.toList = [','].intercalate parts ∧ (∀ part ∈ parts, ',' ∉ part) ∧
    List.Forall₂ IsTrimmed parts texts ∧ List.Forall₂ IsToken (texts.filter (· ≠ [])) ts

theorem tokenizes_tokens (declaration : String) : Tokenizes declaration (tokens declaration) := by
  refine ⟨splitParts ',' declaration.toList, (splitParts ',' declaration.toList).map trim,
    (intercalate_splitParts ..).symm, not_mem_of_mem_splitParts, ?_, ?_⟩
  · exact List.forall₂_map_right_iff.mpr (List.forall₂_same.mpr fun part _ => isTrimmed_trim part)
  · exact List.forall₂_map_right_iff.mpr (List.forall₂_same.mpr fun text _ => isToken_ofChars text)

/-- The tokens of parts that are not blank and need no trimming. -/
theorem tokens_intercalate {parts : List String} (hcomma : ∀ part ∈ parts, ',' ∉ part.toList)
    (htrim : ∀ part ∈ parts, trim part.toList = part.toList) (hne : ∀ part ∈ parts, part ≠ "") :
    tokens (",".intercalate parts) = parts.map fun part => Token.ofChars part.toList := by
  by_cases hnil : parts = []
  · subst hnil
    rfl
  have hsplit : splitParts ',' (",".intercalate parts).toList = parts.map String.toList := by
    rw [String.toList_intercalate]
    exact splitParts_intercalate (by simpa using hnil) (by simpa using hcomma)
  have hmap : (parts.map String.toList).map trim = parts.map String.toList := by
    rw [List.map_map]
    exact List.map_congr_left htrim
  have hfilter : (parts.map String.toList).filter (· ≠ []) = parts.map String.toList := by
    rw [List.filter_eq_self]
    simpa using hne
  rw [tokens, hsplit, hmap, hfilter, List.map_map]
  rfl

/-! ### One more token -/

/-- The keys that mean something. -/
def knownKeys : List String := ["optional", "skip", "len", "enum"]

theorem mem_knownKeys {key : String} :
    key ∈ knownKeys ↔ key = "optional" ∨ key = "skip" ∨ key = "len" ∨ key = "enum" := by
  simp [knownKeys]

theorem not_mem_knownKeys {key : String} :
    key ∉ knownKeys ↔ key ≠ "optional" ∧ key ≠ "skip" ∧ key ≠ "len" ∧ key ≠ "enum" := by
  simp [knownKeys]

namespace Directives

/-- A key that means something has been read. -/
def declares (d : Directives) (key : String) : Bool :=
  if key = "optional" then d.optional
  else if key = "skip" then d.skip
  else if key = "len" then d.fixedLen.isSome
  else if key = "enum" then d.enumGroup.isSome
  else false

variable {d d' : Directives} {value : Option String}

@[simp] theorem declares_optional : d.declares "optional" = d.optional := rfl

@[simp] theorem declares_skip : d.declares "skip" = d.skip := rfl

@[simp] theorem declares_len : d.declares "len" = d.fixedLen.isSome := rfl

@[simp] theorem declares_enum : d.declares "enum" = d.enumGroup.isSome := rfl

theorem declares_of_not_known {key : String} (h : key ∉ knownKeys) : d.declares key = false := by
  obtain ⟨hoptional, hskip, hlen, henum⟩ := not_mem_knownKeys.mp h
  rw [declares, if_neg hoptional, if_neg hskip, if_neg hlen, if_neg henum]

theorem readFlag_bind_eq_ok {token : Token} {set : Bool} {f : Bool → Directives} :
    (readFlag token set >>= fun b => pure (f b)) = .ok d' ↔ token.value = none ∧ set = false ∧ d' = f true := by
  unfold readFlag
  cases token.value with
  | some v => exact ⟨nofun, nofun⟩
  | none =>
      cases set with
      | true => exact ⟨nofun, nofun⟩
      | false => exact ⟨fun h => ⟨rfl, rfl, (Except.ok.inj h).symm⟩, fun h => congrArg Except.ok h.2.2.symm⟩

theorem readValue_bind_eq_ok {token : Token} {f : String → Except DirectiveError Directives} :
    (readValue token >>= f) = .ok d' ↔ ∃ v, token.value = some v ∧ v ≠ "" ∧ f v = .ok d' := by
  unfold readValue
  cases token.value with
  | none => exact ⟨nofun, nofun⟩
  | some v =>
      by_cases hv : v = "" <;> simp [hv, bind, Except.bind]

theorem readFlag_bind_eq_error {token : Token} {set : Bool} {f : Bool → Directives} {e : DirectiveError} :
    (readFlag token set >>= fun b => pure (f b)) = .error e ↔
      (∃ v, token.value = some v ∧ e = .unexpectedValue token.key v) ∨
        token.value = none ∧ set = true ∧ e = .duplicate token.key := by
  unfold readFlag
  cases token.value with
  | some v => simp [bind, Except.bind, eq_comm]
  | none => cases set <;> simp [bind, Except.bind, pure, Except.pure, eq_comm]

theorem readValue_bind_eq_error {token : Token} {f : String → Except DirectiveError Directives} {e : DirectiveError} :
    (readValue token >>= f) = .error e ↔
      (∀ v ∈ token.value, v = "") ∧ e = .missingValue token.key ∨
        ∃ v, token.value = some v ∧ v ≠ "" ∧ f v = .error e := by
  unfold readValue
  cases token.value with
  | none => simp [bind, Except.bind, eq_comm]
  | some v => by_cases hv : v = "" <;> simp [hv, bind, Except.bind, eq_comm]

theorem add_optional_eq_ok :
    d.add ⟨"optional", value⟩ = .ok d' ↔ value = none ∧ d.optional = false ∧ d' = { d with optional := true } :=
  readFlag_bind_eq_ok

theorem add_skip_eq_ok :
    d.add ⟨"skip", value⟩ = .ok d' ↔ value = none ∧ d.skip = false ∧ d' = { d with skip := true } :=
  readFlag_bind_eq_ok

theorem add_len_eq_ok :
    d.add ⟨"len", value⟩ = .ok d' ↔ ∃ v, value = some v ∧ v ≠ "" ∧ d.fixedLen.isSome = false ∧
      ∃ n, readLength? v.toList = some n ∧ d' = { d with fixedLen := some n } := by
  refine readValue_bind_eq_ok.trans ?_
  refine exists_congr fun v => and_congr_right fun _ => and_congr_right fun _ => throw_if_eq_ok.trans ?_
  refine and_congr_right fun _ => ?_
  cases readLength? v.toList with
  | none => exact ⟨nofun, nofun⟩
  | some n => exact ⟨fun h => ⟨n, rfl, (Except.ok.inj h).symm⟩, fun ⟨_, hn, hd⟩ => hd ▸ Option.some.inj hn ▸ rfl⟩

theorem add_enum_eq_ok :
    d.add ⟨"enum", value⟩ = .ok d' ↔ ∃ v, value = some v ∧ v ≠ "" ∧ d.enumGroup.isSome = false ∧
      d' = { d with enumGroup := some v } := by
  refine readValue_bind_eq_ok.trans ?_
  refine exists_congr fun v => and_congr_right fun _ => and_congr_right fun _ => throw_if_eq_ok.trans ?_
  exact and_congr_right fun _ => ⟨fun h => (Except.ok.inj h).symm, fun hd => hd ▸ rfl⟩

theorem add_flag_eq_error {key : String} (hkey : key = "optional" ∨ key = "skip") {e : DirectiveError} :
    d.add ⟨key, value⟩ = .error e ↔ (∃ v, value = some v ∧ e = .unexpectedValue key v) ∨
      value = none ∧ d.declares key = true ∧ e = .duplicate key := by
  rcases hkey with rfl | rfl <;> exact readFlag_bind_eq_error

theorem add_len_eq_error {e : DirectiveError} :
    d.add ⟨"len", value⟩ = .error e ↔ (∀ v ∈ value, v = "") ∧ e = .missingValue "len" ∨
      ∃ v, value = some v ∧ v ≠ "" ∧ (d.fixedLen.isSome = true ∧ e = .duplicate "len" ∨
        d.fixedLen.isSome = false ∧ readLength? v.toList = none ∧ e = .invalidLength v) := by
  refine readValue_bind_eq_error.trans (or_congr_right ?_)
  refine exists_congr fun v => and_congr_right fun _ => and_congr_right fun _ => throw_if_eq_error.trans ?_
  refine or_congr (and_congr_right fun _ => eq_comm) (and_congr_right fun _ => ?_)
  cases readLength? v.toList with
  | none => exact ⟨fun h => ⟨rfl, (Except.error.inj h).symm⟩, fun h => congrArg Except.error h.2.symm⟩
  | some n => exact ⟨nofun, nofun⟩

theorem add_enum_eq_error {e : DirectiveError} :
    d.add ⟨"enum", value⟩ = .error e ↔ (∀ v ∈ value, v = "") ∧ e = .missingValue "enum" ∨
      ∃ v, value = some v ∧ v ≠ "" ∧ d.enumGroup.isSome = true ∧ e = .duplicate "enum" := by
  refine readValue_bind_eq_error.trans (or_congr_right ?_)
  refine exists_congr fun v => and_congr_right fun _ => and_congr_right fun _ => throw_if_eq_error.trans ?_
  exact ⟨fun h => h.elim (fun h => ⟨h.1, h.2.symm⟩) nofun, fun h => .inl ⟨h.1, h.2.symm⟩⟩

theorem add_of_not_known {key : String} (h : key ∉ knownKeys) :
    d.add ⟨key, value⟩ = .ok { d with unknown := d.unknown ++ [(key, value)] } := by
  obtain ⟨hoptional, hskip, hlen, henum⟩ := not_mem_knownKeys.mp h
  rw [add, if_neg hoptional, if_neg hskip, if_neg hlen, if_neg henum]
  rfl

end Directives

end CanonicalWire
