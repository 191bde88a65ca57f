import CanonicalWire.Proofs.Tokens

/-!
The grammar of declarations. Which tokens make up a declaration is said here of the tokens as a whole: how often a
key may come, and with which values. Reading looks at one token after the other, accepts exactly these tokens and
gives what they declare; of other tokens it reports the fault of the first one that the tokens before it do not go
together with.
-/

namespace CanonicalWire

/-- The keys that stand alone. -/
def flagKeys : List String := ["optional", "skip"]

/-- The keys that need a value. -/
def valueKeys : List String := ["len", "enum"]

theorem mem_flagKeys {key : String} : key ∈ flagKeys ↔ key = "optional" ∨ key = "skip" := by
  simp [flagKeys]

theorem mem_valueKeys {key : String} : key ∈ valueKeys ↔ key = "len" ∨ key = "enum" := by
  simp [valueKeys]

theorem mem_knownKeys_iff {key : String} : key ∈ knownKeys ↔ key ∈ flagKeys ∨ key ∈ valueKeys := by
  rw [mem_knownKeys, mem_flagKeys, mem_valueKeys, or_assoc]

/-- The text is a length: decimal digits, perhaps after one plus sign. -/
def IsLength (value : String) (n : Nat) : Prop :=
  ∃ digits, (value.toList = digits ∨ value.toList = '+' :: digits) ∧ digits ≠ [] ∧
    (∀ c ∈ digits, '0' ≤ c ∧ c ≤ '9') ∧ Nat.ofDigits 10 (digits.reverse.map fun c => c.toNat - '0'.toNat) = n ∧
    n < UInt64.size

theorem isLength_iff {value : String} {n : Nat} : IsLength value n ↔ readLength? value.toList = some n := by
  have hrange (digits : List Char) : (∀ c ∈ digits, '0' ≤ c ∧ c ≤ '9') ↔ ∀ c ∈ digits, isDigit c = true := by
    simp [isDigit]
  simp only [IsLength, hrange, ← decimalValue_eq_ofDigits]
  constructor
  · rintro ⟨digits, hvalue | hvalue, hne, hdigits, hn, hbound⟩ <;> rw [hvalue]
    · rw [readLength?_digits hne hdigits, hn]
      exact if_pos hbound
    · exact (readNat?_filter_eq_some.mpr ⟨hne, hdigits, hn, hbound⟩)
  · intro h
    obtain ⟨digits, hvalue, hread⟩ := readLength?_cases value.toList
    obtain ⟨hne, hdigits, hn, hbound⟩ := readNat?_filter_eq_some.mp (hread.symm.trans h)
    exact ⟨digits, hvalue, hne, hdigits, hn, hbound⟩

theorem IsLength.unique {value : String} {n m : Nat} (hn : IsLength value n) (hm : IsLength value m) : n = m :=
  Option.some.inj ((isLength_iff.mp hn).symm.trans (isLength_iff.mp hm))

theorem IsLength.ne {value : String} {n : Nat} (h : IsLength value n) : value ≠ "" := by
  rintro rfl
  obtain ⟨digits, rfl | hdigits, hne, -⟩ := h
  · exact hne rfl
  · cases hdigits

/-- The key of some token. -/
def HasKey (ts : List Token) (key : String) : Prop := key ∈ ts.map Token.key

theorem hasKey_concat {before : List Token} {token : Token} {key : String} :
    HasKey (before ++ [token]) key ↔ HasKey before key ∨ key = token.key := by
  simp [HasKey]

/-- The value of the token is one that its key allows. -/
structure Token.WellValued (token : Token) : Prop where
  flag : token.key ∈ flagKeys → token.value = none
  len : token.key = "len" → ∃ value n, token.value = some value ∧ IsLength value n
  enum : token.key = "enum" → ∃ value, token.value = some value ∧ value ≠ ""

namespace Token.WellValued

theorem of_not_known {key : String} (h : key ∉ knownKeys) (value : Option String) : WellValued ⟨key, value⟩ where
  flag hkey := absurd (mem_knownKeys_iff.mpr (.inl hkey)) h
  len hkey := absurd hkey (not_mem_knownKeys.mp h).2.2.1
  enum hkey := absurd hkey (not_mem_knownKeys.mp h).2.2.2

theorem of_flag {key : String} (h : key ∈ flagKeys) : WellValued ⟨key, none⟩ where
  flag _ := rfl
  len hkey := by simp_all [flagKeys]
  enum hkey := by simp_all [flagKeys]

theorem of_len {value : String} {n : Nat} (h : IsLength value n) : WellValued ⟨"len", some value⟩ where
  flag hkey := by simp [flagKeys] at hkey
  len _ := ⟨value, n, rfl, h⟩
  enum hkey := by simp at hkey

theorem of_enum {value : String} (h : value ≠ "") : WellValued ⟨"enum", some value⟩ where
  flag hkey := by simp [flagKeys] at hkey
  len hkey := by simp at hkey
  enum _ := ⟨value, rfl, h⟩

end Token.WellValued

/-- The tokens are a declaration: each known key comes once at most, and with a value that it allows. -/
structure Grammatical (ts : List Token) : Prop where
  once : ∀ key ∈ knownKeys, (ts.map Token.key).count key ≤ 1
  valued : ∀ token ∈ ts, token.WellValued

/-- A token goes together with the tokens before it. -/
structure Fits (before : List Token) (token : Token) : Prop where
  new : token.key ∈ knownKeys → ¬HasKey before token.key
  valued : token.WellValued

theorem grammatical_nil : Grammatical [] := ⟨by simp, by simp⟩

theorem grammatical_concat {before : List Token} {token : Token} :
    Grammatical (before ++ [token]) ↔ Grammatical before ∧ Fits before token := by
  have hcount (key : String) : ((before ++ [token]).map Token.key).count key =
      (before.map Token.key).count key + if token.key = key then 1 else 0 := by
    simp [List.count_singleton]
  constructor
  · intro h
    obtain ⟨hbefore, htoken⟩ := List.forall_mem_append.mp h.valued
    refine ⟨⟨fun key hkey => ?_, hbefore⟩, ⟨fun hkey hhas => ?_, List.forall_mem_singleton.mp htoken⟩⟩
    · have honce := h.once key hkey
      rw [hcount] at honce
      omega
    · have honce := h.once token.key hkey
      have hpos := List.count_pos_iff.mpr hhas
      rw [hcount, if_pos rfl] at honce
      omega
  · rintro ⟨hbefore, hfits⟩
    refine ⟨fun key hkey => ?_, List.forall_mem_append.mpr ⟨hbefore.valued, by simpa using hfits.valued⟩⟩
    have honce := hbefore.once key hkey
    rw [hcount]
    split
    case isTrue heq =>
      subst heq
      have hzero := List.count_eq_zero.mpr (hfits.new hkey)
      omega
    case isFalse => omega

/-- Why a token does not go together with the tokens before it. A missing or unexpected value comes before a
repetition, and a repetition before a value that is not a length. -/
inductive Fault (before : List Token) : Token → DirectiveError → Prop
  | unexpectedValue {key value : String} (hkey : key ∈ flagKeys) :
      Fault before ⟨key, some value⟩ (.unexpectedValue key value)
  | flagAgain {key : String} (hkey : key ∈ flagKeys) (h : HasKey before key) :
      Fault before ⟨key, none⟩ (.duplicate key)
  | missingValue {key : String} {value : Option String} (hkey : key ∈ valueKeys) (h : ∀ v ∈ value, v = "") :
      Fault before ⟨key, value⟩ (.missingValue key)
  | valueAgain {key value : String} (hkey : key ∈ valueKeys) (hvalue : value ≠ "") (h : HasKey before key) :
      Fault before ⟨key, some value⟩ (.duplicate key)
  | invalidLength {value : String} (hvalue : value ≠ "") (h : ¬HasKey before "len") (hlen : ∀ n, ¬IsLength value n) :
      Fault before ⟨"len", some value⟩ (.invalidLength value)

namespace Directives

/-- The directives are those that the tokens declare. -/
structure DeclaredBy (d : Directives) (ts : List Token) : Prop where
  optional : d.optional = true ↔ HasKey ts "optional"
  skip : d.skip = true ↔ HasKey ts "skip"
  fixedLen : ∀ n, d.fixedLen = some n ↔ ∃ value, ⟨"len", some value⟩ ∈ ts ∧ IsLength value n
  enumGroup : ∀ group, d.enumGroup = some group ↔ ⟨"enum", some group⟩ ∈ ts
  unknown : d.unknown = (ts.filter (·.key ∉ knownKeys)).map fun token => (token.key, token.value)

theorem DeclaredBy.unique {d d' : Directives} {ts : List Token} (hd : d.DeclaredBy ts) (hd' : d'.DeclaredBy ts) :
    d = d' := by
  have hoptional := Bool.eq_iff_iff.mpr (hd.optional.trans hd'.optional.symm)
  have hskip := Bool.eq_iff_iff.mpr (hd.skip.trans hd'.skip.symm)
  have hfixedLen := Option.ext fun n => (hd.fixedLen n).trans (hd'.fixedLen n).symm
  have henumGroup := Option.ext fun group => (hd.enumGroup group).trans (hd'.enumGroup group).symm
  have hunknown := hd.unknown.trans hd'.unknown.symm
  cases d
  cases d'
  simp_all

/-! ### One more token -/

section Step

variable {d d' : Directives} {before : List Token} {token : Token}

theorem declaredBy_nil : DeclaredBy {} [] := by
  constructor <;> simp [HasKey]

/-- Such directives know which of the keys with a meaning have come. -/
theorem DeclaredBy.declares_iff (hd : d.DeclaredBy before) (hbefore : Grammatical before) {key : String}
    (hkey : key ∈ knownKeys) : d.declares key = true ↔ HasKey before key := by
  rcases mem_knownKeys.mp hkey with rfl | rfl | rfl | rfl
  case inl => exact hd.optional
  case inr.inl => exact hd.skip
  case inr.inr.inl =>
    rw [declares_len, Option.isSome_iff_exists]
    constructor
    · rintro ⟨n, hn⟩
      obtain ⟨value, hmem, -⟩ := (hd.fixedLen n).mp hn
      exact List.mem_map_of_mem hmem
    · intro h
      obtain ⟨⟨key, value⟩, hmem, rfl⟩ := List.mem_map.mp h
      obtain ⟨value, n, rfl, hlength⟩ := (hbefore.valued _ hmem).len rfl
      exact ⟨n, (hd.fixedLen n).mpr ⟨value, hmem, hlength⟩⟩
  case inr.inr.inr =>
    rw [declares_enum, Option.isSome_iff_exists]
    constructor
    · rintro ⟨group, hgroup⟩
      exact List.mem_map_of_mem ((hd.enumGroup group).mp hgroup)
    · intro h
      obtain ⟨⟨key, value⟩, hmem, rfl⟩ := List.mem_map.mp h
      obtain ⟨value, rfl, -⟩ := (hbefore.valued _ hmem).enum rfl
      exact ⟨value, (hd.enumGroup value).mpr hmem⟩

theorem DeclaredBy.concat_unknown (hd : d.DeclaredBy before) {key : String} (hkey : key ∉ knownKeys)
    (value : Option String) :
    DeclaredBy { d with unknown := d.unknown ++ [(key, value)] } (before ++ [⟨key, value⟩]) := by
  obtain ⟨hoptional, hskip, hlen, henum⟩ := not_mem_knownKeys.mp hkey
  constructor <;> simp [hasKey_concat, hd.optional, hd.skip, hd.fixedLen, hd.enumGroup, hd.unknown, hkey,
    hoptional.symm, hskip.symm, hlen.symm, henum.symm]

theorem DeclaredBy.concat_optional (hd : d.DeclaredBy before) :
    DeclaredBy { d with optional := true } (before ++ [⟨"optional", none⟩]) := by
  constructor <;> simp [hasKey_concat, hd.skip, hd.fixedLen, hd.enumGroup, hd.unknown, knownKeys]

theorem DeclaredBy.concat_skip (hd : d.DeclaredBy before) :
    DeclaredBy { d with skip := true } (before ++ [⟨"skip", none⟩]) := by
  constructor <;> simp [hasKey_concat, hd.optional, hd.fixedLen, hd.enumGroup, hd.unknown, knownKeys]

theorem DeclaredBy.concat_len (hd : d.DeclaredBy before) (hnew : ¬HasKey before "len") {value : String} {n : Nat}
    (hn : IsLength value n) :
    DeclaredBy { d with fixedLen := some n } (before ++ [⟨"len", some value⟩]) := by
  constructor
  case fixedLen =>
    intro m
    constructor
    · rintro ⟨⟩
      exact ⟨value, List.mem_concat_self, hn⟩
    · rintro ⟨value', hmem, hm⟩
      rcases List.mem_append.mp hmem with hmem | hmem
      · exact absurd (List.mem_map_of_mem hmem) hnew
      · obtain ⟨⟩ := List.mem_singleton.mp hmem
        exact congrArg some (hn.unique hm)
  all_goals simp [hasKey_concat, hd.optional, hd.skip, hd.enumGroup, hd.unknown, knownKeys]

theorem DeclaredBy.concat_enum (hd : d.DeclaredBy before) (hnew : ¬HasKey before "enum") (group : String) :
    DeclaredBy { d with enumGroup := some group } (before ++ [⟨"enum", some group⟩]) := by
  constructor
  case enumGroup =>
    intro group'
    constructor
    · rintro ⟨⟩
      exact List.mem_concat_self
    · intro hmem
      rcases List.mem_append.mp hmem with hmem | hmem
      · exact absurd (List.mem_map_of_mem hmem) hnew
      · obtain ⟨⟩ := List.mem_singleton.mp hmem
        rfl
  all_goals simp [hasKey_concat, hd.optional, hd.skip, hd.fixedLen, hd.unknown, knownKeys]

theorem DeclaredBy.exists_add (hd : d.DeclaredBy before) (hbefore : Grammatical before) (hfits : Fits before token) :
    ∃ d', d.add token = .ok d' := by
  have hnew (hkey : token.key ∈ knownKeys) : d.declares token.key = false :=
    Bool.eq_false_iff.mpr (mt (hd.declares_iff hbefore hkey).mp (hfits.new hkey))
  have hvalued := hfits.valued
  obtain ⟨key, value⟩ := token
  by_cases hkey : key ∈ knownKeys
  case neg => exact ⟨_, add_of_not_known hkey⟩
  rcases mem_knownKeys.mp hkey with rfl | rfl | rfl | rfl
  case pos.inl => exact ⟨_, add_optional_eq_ok.mpr ⟨hvalued.flag (mem_flagKeys.mpr (.inl rfl)), hnew hkey, rfl⟩⟩
  case pos.inr.inl => exact ⟨_, add_skip_eq_ok.mpr ⟨hvalued.flag (mem_flagKeys.mpr (.inr rfl)), hnew hkey, rfl⟩⟩
  case pos.inr.inr.inl =>
    obtain ⟨v, n, hv, hn⟩ := hvalued.len rfl
    exact ⟨_, add_len_eq_ok.mpr ⟨v, hv, hn.ne, hnew hkey, n, isLength_iff.mp hn, rfl⟩⟩
  case pos.inr.inr.inr =>
    obtain ⟨v, hv, hne⟩ := hvalued.enum rfl
    exact ⟨_, add_enum_eq_ok.mpr ⟨v, hv, hne, hnew hkey, rfl⟩⟩

theorem DeclaredBy.add (hd : d.DeclaredBy before) (hbefore : Grammatical before) (h : d.add token = .ok d') :
    Fits before token ∧ d'.DeclaredBy (before ++ [token]) := by
  have hnew (hkey : token.key ∈ knownKeys) (h : d.declares token.key = false) : ¬HasKey before token.key :=
    mt (hd.declares_iff hbefore hkey).mpr (Bool.eq_false_iff.mp h)
  obtain ⟨key, value⟩ := token
  by_cases hkey : key ∈ knownKeys
  case neg =>
    obtain rfl := Except.ok.inj ((add_of_not_known hkey).symm.trans h)
    exact ⟨⟨fun h => absurd h hkey, .of_not_known hkey value⟩, hd.concat_unknown hkey value⟩
  rcases mem_knownKeys.mp hkey with rfl | rfl | rfl | rfl
  case pos.inl =>
    obtain ⟨rfl, hset, rfl⟩ := add_optional_eq_ok.mp h
    exact ⟨⟨fun _ => hnew hkey hset, .of_flag (mem_flagKeys.mpr (.inl rfl))⟩, hd.concat_optional⟩
  case pos.inr.inl =>
    obtain ⟨rfl, hset, rfl⟩ := add_skip_eq_ok.mp h
    exact ⟨⟨fun _ => hnew hkey hset, .of_flag (mem_flagKeys.mpr (.inr rfl))⟩, hd.concat_skip⟩
  case pos.inr.inr.inl =>
    obtain ⟨v, rfl, -, hset, n, hn, rfl⟩ := add_len_eq_ok.mp h
    have hlength := isLength_iff.mpr hn
    exact ⟨⟨fun _ => hnew hkey hset, .of_len hlength⟩, hd.concat_len (hnew hkey hset) hlength⟩
  case pos.inr.inr.inr =>
    obtain ⟨v, rfl, hne, hset, rfl⟩ := add_enum_eq_ok.mp h
    exact ⟨⟨fun _ => hnew hkey hset, .of_enum hne⟩, hd.concat_enum (hnew hkey hset) v⟩

theorem DeclaredBy.add_eq_error (hd : d.DeclaredBy before) (hbefore : Grammatical before) {e : DirectiveError} :
    d.add token = .error e ↔ Fault before token e := by
  have hhas {key : String} (hkey : key ∈ knownKeys) := hd.declares_iff hbefore hkey
  constructor
  · intro h
    obtain ⟨key, value⟩ := token
    by_cases hkey : key ∈ knownKeys
    case neg => exact absurd ((add_of_not_known hkey).symm.trans h) nofun
    rcases mem_knownKeys_iff.mp hkey with hflag | hvalue
    case pos.inl =>
      rcases (add_flag_eq_error (mem_flagKeys.mp hflag)).mp h with ⟨v, rfl, rfl⟩ | ⟨rfl, hset, rfl⟩
      · exact .unexpectedValue hflag
      · exact .flagAgain hflag ((hhas hkey).mp hset)
    rcases mem_valueKeys.mp hvalue with rfl | rfl
    case pos.inr.inl =>
      rcases add_len_eq_error.mp h with ⟨hmissing, rfl⟩ | ⟨v, rfl, hne, ⟨hset, rfl⟩ | ⟨hset, hlen, rfl⟩⟩
      · exact .missingValue hvalue hmissing
      · exact .valueAgain hvalue hne ((hhas hkey).mp hset)
      · refine .invalidLength hne (mt (hhas hkey).mpr (Bool.eq_false_iff.mp hset)) fun n hn => ?_
        exact absurd (hlen.symm.trans (isLength_iff.mp hn)) nofun
    case pos.inr.inr =>
      rcases add_enum_eq_error.mp h with ⟨hmissing, rfl⟩ | ⟨v, rfl, hne, hset, rfl⟩
      · exact .missingValue hvalue hmissing
      · exact .valueAgain hvalue hne ((hhas hkey).mp hset)
  · intro h
    cases h with
    | unexpectedValue hflag => exact (add_flag_eq_error (mem_flagKeys.mp hflag)).mpr (.inl ⟨_, rfl, rfl⟩)
    | flagAgain hflag h =>
        have hset := (hhas (mem_knownKeys_iff.mpr (.inl hflag))).mpr h
        exact (add_flag_eq_error (mem_flagKeys.mp hflag)).mpr (.inr ⟨rfl, hset, rfl⟩)
    | missingValue hvalue hmissing =>
        rcases mem_valueKeys.mp hvalue with rfl | rfl
        · exact add_len_eq_error.mpr (.inl ⟨hmissing, rfl⟩)
        · exact add_enum_eq_error.mpr (.inl ⟨hmissing, rfl⟩)
    | valueAgain hvalue hne h =>
        have hset := (hhas (mem_knownKeys_iff.mpr (.inr hvalue))).mpr h
        rcases mem_valueKeys.mp hvalue with rfl | rfl
        · exact add_len_eq_error.mpr (.inr ⟨_, rfl, hne, .inl ⟨hset, rfl⟩⟩)
        · exact add_enum_eq_error.mpr (.inr ⟨_, rfl, hne, hset, rfl⟩)
    | @invalidLength value hne h hlen =>
        have hset := Bool.eq_false_iff.mpr (mt (hhas (by decide)).mp h)
        have hread : readLength? value.toList = none :=
          Option.eq_none_iff_forall_ne_some.mpr fun n hn => hlen n (isLength_iff.mpr hn)
        exact add_len_eq_error.mpr (.inr ⟨value, rfl, hne, .inr ⟨hset, hread, rfl⟩⟩)

end Step

/-! ### Whole declarations -/

theorem declaredBy_foldlM {ts : List Token} {d : Directives} (h : ts.foldlM add {} = .ok d) :
    Grammatical ts ∧ d.DeclaredBy ts := by
  refine foldlM_invariant (P := fun seen d => Grammatical seen ∧ d.DeclaredBy seen) (fun hseen hadd => ?_)
    ⟨grammatical_nil, declaredBy_nil⟩ h
  obtain ⟨hbefore, hd⟩ := hseen
  obtain ⟨hfits, hd'⟩ := hd.add hbefore hadd
  exact ⟨grammatical_concat.mpr ⟨hbefore, hfits⟩, hd'⟩

theorem exists_foldlM {ts : List Token} (h : Grammatical ts) : ∃ d, ts.foldlM add {} = .ok d := by
  induction ts using List.reverseRecOn with
  | nil => exact ⟨{}, rfl⟩
  | append_singleton before token ih =>
      obtain ⟨hbefore, hfits⟩ := grammatical_concat.mp h
      obtain ⟨d, hd⟩ := ih hbefore
      obtain ⟨d', hd'⟩ := (declaredBy_foldlM hd).2.exists_add hbefore hfits
      refine ⟨d', ?_⟩
      rw [List.foldlM_append]
      exact bind_eq_ok.mpr ⟨d, hd, by rw [List.foldlM_cons, hd']; rfl⟩

theorem foldlM_eq_ok {ts : List Token} {d : Directives} :
    ts.foldlM add {} = .ok d ↔ Grammatical ts ∧ d.DeclaredBy ts := by
  refine ⟨declaredBy_foldlM, fun h => ?_⟩
  obtain ⟨hts, hd⟩ := h
  obtain ⟨d', hd'⟩ := exists_foldlM hts
  rw [hd', hd.unique (declaredBy_foldlM hd').2]

/-- The fault is that of the first token after which the tokens are no declaration. -/
theorem foldlM_eq_fault {ts : List Token} {e : DirectiveError} :
    ts.foldlM add {} = .error e ↔ ∃ before token after, ts = before ++ token :: after ∧
      Grammatical before ∧ ¬Grammatical (before ++ [token]) ∧ Fault before token e := by
  refine foldlM_eq_error.trans (exists_congr fun before => exists_congr fun token => exists_congr fun after => ?_)
  constructor
  · rintro ⟨d, hts, hd, hadd⟩
    obtain ⟨hbefore, hdeclared⟩ := declaredBy_foldlM hd
    refine ⟨hts, hbefore, fun h => ?_, (hdeclared.add_eq_error hbefore).mp hadd⟩
    obtain ⟨d', hd'⟩ := hdeclared.exists_add hbefore (grammatical_concat.mp h).2
    exact absurd (hd'.symm.trans hadd) nofun
  · rintro ⟨hts, hbefore, -, hfault⟩
    obtain ⟨d, hd⟩ := exists_foldlM hbefore
    exact ⟨d, hts, hd, ((declaredBy_foldlM hd).2.add_eq_error hbefore).mpr hfault⟩

/-- A declaration is accepted exactly if its tokens make up one, and gives what they declare. Otherwise the first
token that does not go together with those before it is reported, whatever comes after it. -/
theorem parse_grammar (declaration : String) :
    Tokenizes declaration (tokens declaration) ∧
      ((∃ d, parse declaration = .ok d) ↔ Grammatical (tokens declaration)) ∧
      (∀ d, parse declaration = .ok d ↔ Grammatical (tokens declaration) ∧ d.DeclaredBy (tokens declaration)) ∧
      ∀ e, parse declaration = .error e ↔ ∃ before token after, tokens declaration = before ++ token :: after ∧
        Grammatical before ∧ ¬Grammatical (before ++ [token]) ∧ Fault before token e := by
  refine ⟨tokenizes_tokens declaration, ⟨?_, exists_foldlM⟩, fun _ => foldlM_eq_ok, fun _ => foldlM_eq_fault⟩
  rintro ⟨d, hd⟩
  exact (declaredBy_foldlM hd).1

/-- The second token is at fault, and not the one behind it. -/
example : parse "len = +7, enum= ,skip=no" = .error (.missingValue "enum") := by rfl

end Directives
end CanonicalWire
