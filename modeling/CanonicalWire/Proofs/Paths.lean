import CanonicalWire.Derive.Lexeme

/-!
Types that are paths. A grammar says which lexemes of a type are a path and what its last segment is; what is read
off the lexemes outside all brackets agrees with it.
-/

namespace CanonicalWire.Derive

namespace Lexeme

/-! ### Brackets that pair up -/

/-- The opening brackets with those that close them. -/
def brackets : List (Char × Char) := [('<', '>'), ('(', ')'), ('[', ']'), ('\x7b', '\x7d')]

/-- Any lexeme that is not a bracket. -/
def IsPlain (l : Lexeme) : Prop := ∀ p ∈ brackets, l ≠ .symbol p.1 ∧ l ≠ .symbol p.2

/-- Every bracket is closed by its own, innermost first. -/
inductive Balanced : List Lexeme → Prop
  | nil : Balanced []
  | plain {l : Lexeme} {ls : List Lexeme} (h : l.IsPlain) (hls : Balanced ls) : Balanced (l :: ls)
  | group {p : Char × Char} {inner rest : List Lexeme} (h : p ∈ brackets) (hinner : Balanced inner)
      (hrest : Balanced rest) : Balanced (.symbol p.1 :: (inner ++ .symbol p.2 :: rest))

variable {p : Char × Char} {l : Lexeme} {ls inner rest : List Lexeme} {opened : List Char}

theorem openAfter_plain (h : l.IsPlain) : openAfter opened l = opened := by
  unfold openAfter
  split <;> simp_all [IsPlain, brackets]

theorem openAfter_opening (h : p ∈ brackets) : openAfter opened (.symbol p.1) = p.1 :: opened := by
  simp only [brackets, List.mem_cons, List.not_mem_nil, or_false] at h
  rcases h with rfl | rfl | rfl | rfl <;> rfl

theorem openAfter_closing (h : p ∈ brackets) : openAfter (p.1 :: opened) (.symbol p.2) = opened := by
  simp only [brackets, List.mem_cons, List.not_mem_nil, or_false] at h
  rcases h with rfl | rfl | rfl | rfl <;> simp [openAfter]

/-- Inside brackets, nothing of what pairs up stands outside. -/
theorem Balanced.outside_append (h : Balanced ls) (hopened : opened ≠ []) :
    outside opened (ls ++ rest) = outside opened rest := by
  induction h generalizing opened rest with
  | nil => rfl
  | plain hplain _ ih => rw [List.cons_append, outside, if_neg fun h => hopened h.1, openAfter_plain hplain, ih hopened]
  | group hp _ _ ihinner ihrest =>
      rw [List.cons_append, outside, if_neg fun h => hopened h.1, openAfter_opening hp, List.append_assoc,
        ihinner (List.cons_ne_nil _ _), List.cons_append, outside, if_neg fun h => List.cons_ne_nil _ _ h.1,
        openAfter_closing hp, ihrest hopened]

theorem outside_plain (h : l.IsPlain) : outside [] (l :: rest) = l :: outside [] rest := by
  rw [outside, if_pos ⟨rfl, openAfter_plain h⟩]

theorem outside_group (h : p ∈ brackets) (hinner : Balanced inner) :
    outside [] (.symbol p.1 :: (inner ++ .symbol p.2 :: rest)) = outside [] rest := by
  rw [outside, openAfter_opening h, if_neg fun h => List.cons_ne_nil _ _ h.2,
    hinner.outside_append (List.cons_ne_nil _ _), outside, if_neg fun h => List.cons_ne_nil _ _ h.1,
    openAfter_closing h]

/-! ### What stands before an arrow -/

/-- The part before the first arrow outside all brackets, where some brackets are open already. -/
def upToArrow (opened : List Char) (ls : List Lexeme) : List Lexeme := (splitTop .arrow opened ls).head?.getD []

theorem upToArrow_cons (h : opened ≠ [] ∨ l ≠ .arrow) :
    upToArrow opened (l :: ls) = l :: upToArrow (openAfter opened l) ls := by
  have hif : ¬(opened = [] ∧ l = .arrow) := fun heq => h.elim (absurd heq.1) (absurd heq.2)
  rw [upToArrow, splitTop, if_neg hif, upToArrow]
  cases splitTop .arrow (openAfter opened l) ls <;> rfl

theorem Balanced.upToArrow_append (h : Balanced ls) (hopened : opened ≠ []) :
    upToArrow opened (ls ++ rest) = ls ++ upToArrow opened rest := by
  induction h generalizing opened rest with
  | nil => rfl
  | plain hplain _ ih =>
      rw [List.cons_append, upToArrow_cons (.inl hopened), openAfter_plain hplain, ih hopened, List.cons_append]
  | group hp _ _ ihinner ihrest =>
      rw [List.cons_append, upToArrow_cons (.inl hopened), openAfter_opening hp, List.append_assoc,
        ihinner (List.cons_ne_nil _ _), List.cons_append, upToArrow_cons (.inl (List.cons_ne_nil _ _)),
        openAfter_closing hp, ihrest hopened, List.cons_append, List.append_assoc, List.cons_append]

theorem upToArrow_group (h : p ∈ brackets) (hinner : Balanced inner) :
    upToArrow [] (.symbol p.1 :: (inner ++ .symbol p.2 :: rest)) =
      .symbol p.1 :: (inner ++ .symbol p.2 :: upToArrow [] rest) := by
  rw [upToArrow_cons (l := .symbol p.1) (.inr nofun), openAfter_opening h,
    hinner.upToArrow_append (List.cons_ne_nil _ _), upToArrow_cons (.inl (List.cons_ne_nil _ _)),
    openAfter_closing h]

end Lexeme

/-! ### Paths -/

open Lexeme

/-- What may stand behind the name of a segment: nothing, or a group of angle or round brackets; two colons may
stand before it. -/
inductive IsArguments : List Lexeme → Prop
  | none : IsArguments []
  | group {p : Char × Char} {inner : List Lexeme} (h : p ∈ [('<', '>'), ('(', ')')]) (hinner : Balanced inner) :
      IsArguments (.symbol p.1 :: (inner ++ [.symbol p.2]))
  | colons {p : Char × Char} {inner : List Lexeme} (h : p ∈ [('<', '>'), ('(', ')')]) (hinner : Balanced inner) :
      IsArguments (.colons :: .symbol p.1 :: (inner ++ [.symbol p.2]))

/-- Segments with two colons between them, of which the last has the given name. -/
inductive IsSegments : List Lexeme → List Char → Prop
  | last {w : List Char} {arguments : List Lexeme} (h : IsArguments arguments) : IsSegments (.word w :: arguments) w
  | more {w name : List Char} {arguments rest : List Lexeme} (h : IsArguments arguments)
      (hrest : IsSegments rest name) : IsSegments (.word w :: (arguments ++ .colons :: rest)) name

/-- A type, with the name of its last segment if it is a path. -/
inductive IsType : List Lexeme → Option (List Char) → Prop
  /-- A path may give the type of a result behind an arrow. -/
  | path {w : List Char} {ls result : List Lexeme} {name : List Char} (hword : String.ofList w ∉ notPaths)
      (h : IsSegments (.word w :: ls) name) (hresult : result = [] ∨ ∃ more, result = .arrow :: more)
      (hsum : .symbol '+' ∉ outside [] result) : IsType (.word w :: (ls ++ result)) (some name)
  /-- A path from the root. -/
  | rooted {ls result : List Lexeme} {name : List Char} (h : IsSegments ls name)
      (hresult : result = [] ∨ ∃ more, result = .arrow :: more) (hsum : .symbol '+' ∉ outside [] result) :
      IsType (.colons :: (ls ++ result)) (some name)
  /-- A path from a type in angle brackets. -/
  | qualified {inner ls : List Lexeme} {name : List Char} (hinner : Balanced inner) (h : IsSegments ls name) :
      IsType (.symbol '<' :: (inner ++ .symbol '>' :: .colons :: ls)) (some name)
  | keyword {w : List Char} {ls : List Lexeme} (h : String.ofList w ∈ notPaths) : IsType (.word w :: ls) none
  /-- References, pointers, tuples, arrays, and the type without values. -/
  | symbol {c : Char} {ls : List Lexeme} (h : c ∈ ['&', '*', '(', '[', '!']) : IsType (.symbol c :: ls) none
  /-- What is put in place of a path and an exclamation mark. -/
  | expansion {ls rest : List Lexeme} {name : List Char} (h : IsSegments ls name) :
      IsType (ls ++ .symbol '!' :: rest) none
  /-- A path and further bounds. -/
  | sum {ls rest : List Lexeme} {name : List Char} (h : IsSegments ls name) :
      IsType (ls ++ .symbol '+' :: rest) none

theorem isPlain_word (w : List Char) : (Lexeme.word w).IsPlain := by simp [IsPlain]

theorem isPlain_colons : Lexeme.colons.IsPlain := by simp [IsPlain]

/-- Names and colons of a path, as they stand outside all brackets. -/
structure Spine (names : List Lexeme) (name : List Char) : Prop where
  isName : ∀ l ∈ names, isName l = true
  last : (names.filterMap Lexeme.word?).getLast? = some (String.ofList name)

namespace IsArguments

variable {arguments rest : List Lexeme}

theorem mem_brackets {p : Char × Char} (h : p ∈ [('<', '>'), ('(', ')')]) : p ∈ brackets := by
  simp only [List.mem_cons, List.not_mem_nil, or_false] at h
  rcases h with rfl | rfl <;> decide

theorem outside_append (h : IsArguments arguments) :
    ∃ colons, (∀ l ∈ colons, l = .colons) ∧ ∀ rest, outside [] (arguments ++ rest) = colons ++ outside [] rest := by
  cases h with
  | none => exact ⟨[], nofun, fun _ => rfl⟩
  | group hp hinner =>
      refine ⟨[], nofun, fun rest => ?_⟩
      rw [List.cons_append, List.append_assoc]
      exact outside_group (mem_brackets hp) hinner
  | colons hp hinner =>
      refine ⟨[.colons], by simp, fun rest => ?_⟩
      rw [List.cons_append, outside_plain isPlain_colons, List.cons_append, List.append_assoc]
      exact congrArg _ (outside_group (mem_brackets hp) hinner)

theorem upToArrow_append (h : IsArguments arguments) :
    upToArrow [] (arguments ++ rest) = arguments ++ upToArrow [] rest := by
  cases h with
  | none => rfl
  | group hp hinner =>
      simp only [List.cons_append, List.append_assoc, List.nil_append]
      exact upToArrow_group (mem_brackets hp) hinner
  | colons hp hinner =>
      simp only [List.cons_append, List.append_assoc, List.nil_append]
      rw [upToArrow_cons (l := .colons) (.inr nofun), openAfter_plain isPlain_colons]
      exact congrArg _ (upToArrow_group (mem_brackets hp) hinner)

end IsArguments

namespace IsSegments

variable {ls : List Lexeme} {name : List Char}

theorem exists_spine (h : IsSegments ls name) :
    ∃ names, Spine names name ∧ ∀ rest, outside [] (ls ++ rest) = names ++ outside [] rest := by
  induction h with
  | @last w arguments harguments =>
      obtain ⟨colons, hcolons, houtside⟩ := harguments.outside_append
      have hwords : colons.filterMap Lexeme.word? = [] := by
        rw [List.filterMap_eq_nil_iff]
        intro l hl
        rw [hcolons l hl]
        rfl
      refine ⟨.word w :: colons, ⟨?_, ?_⟩, fun rest => ?_⟩
      · exact List.forall_mem_cons.mpr ⟨rfl, fun l hl => hcolons l hl ▸ rfl⟩
      · simp [Lexeme.word?, hwords]
      · rw [List.cons_append, outside_plain (isPlain_word w), houtside, List.cons_append]
  | @more w name arguments rest' harguments hrest ih =>
      obtain ⟨colons, hcolons, houtside⟩ := harguments.outside_append
      obtain ⟨names, hspine, hnames⟩ := ih
      refine ⟨.word w :: (colons ++ .colons :: names), ⟨?_, ?_⟩, fun rest => ?_⟩
      · refine List.forall_mem_cons.mpr ⟨rfl, List.forall_mem_append.mpr ⟨fun l hl => hcolons l hl ▸ rfl, ?_⟩⟩
        exact List.forall_mem_cons.mpr ⟨rfl, hspine.isName⟩
      · have hlast := hspine.last
        rw [show (Lexeme.word w :: (colons ++ .colons :: names)) = (.word w :: colons ++ [.colons]) ++ names by simp,
          List.filterMap_append, List.getLast?_append, hlast]
        rfl
      · rw [List.cons_append, outside_plain (isPlain_word w), List.append_assoc, houtside, List.cons_append,
          outside_plain isPlain_colons, hnames]
        simp

theorem upToArrow_append (h : IsSegments ls name) (rest : List Lexeme) :
    upToArrow [] (ls ++ rest) = ls ++ upToArrow [] rest := by
  induction h with
  | @last w arguments harguments =>
      rw [List.cons_append, upToArrow_cons (l := .word w) (.inr nofun), openAfter_plain (isPlain_word w),
        harguments.upToArrow_append, List.cons_append]
  | @more w name arguments rest' harguments _ ih =>
      rw [List.cons_append, upToArrow_cons (l := .word w) (.inr nofun), openAfter_plain (isPlain_word w),
        List.append_assoc, harguments.upToArrow_append, List.cons_append, upToArrow_cons (l := .colons) (.inr nofun),
        openAfter_plain isPlain_colons, ih, List.cons_append, List.append_assoc, List.cons_append]

end IsSegments

variable {type : String}

theorem Spine.symbol_not_mem {names : List Lexeme} {name : List Char} (h : Spine names name) (c : Char) :
    .symbol c ∉ names := fun hmem => Bool.false_ne_true (h.isName _ hmem)

theorem Spine.colons {names : List Lexeme} {name : List Char} (h : Spine names name) : Spine (.colons :: names) name :=
  ⟨List.forall_mem_cons.mpr ⟨rfl, h.isName⟩, h.last⟩

theorem upToArrow_result {result : List Lexeme} (h : result = [] ∨ ∃ more, result = .arrow :: more) :
    upToArrow [] result = [] := by
  obtain rfl | ⟨more, rfl⟩ := h
  · rfl
  · rw [upToArrow, splitTop, if_pos ⟨rfl, rfl⟩]
    rfl

theorem lastSegment?_of_spine (ls result : List Lexeme) {names : List Lexeme} {name : List Char}
    (htext : Lexeme.ofText type = ls ++ result) (hpath : upToArrow [] (ls ++ result) = ls)
    (hopens : opensPath ls = true) (hnames : ∀ rest, outside [] (ls ++ rest) = names ++ outside [] rest)
    (hspine : Spine names name) (hsum : .symbol '+' ∉ outside [] result) :
    lastSegment? type = some (String.ofList name) := by
  have houtside : outside [] ls = names := by
    have hnil := hnames []
    rwa [List.append_nil, outside, List.append_nil] at hnil
  have hplus : (outside [] (ls ++ result)).contains (.symbol '+') = false := by
    rw [hnames]
    simp [hspine.symbol_not_mem, hsum]
  have hall : names.all isName = true := List.all_eq_true.mpr hspine.isName
  rw [upToArrow, ← beforeTop] at hpath
  simp only [lastSegment?, htext, hpath, houtside, hopens, hall, hplus, hspine.last, Bool.not_false, Bool.and_self,
    if_true]

theorem lastSegment?_of_not_opens (h : opensPath (upToArrow [] (Lexeme.ofText type)) = false) :
    lastSegment? type = none := by
  rw [upToArrow, ← beforeTop] at h
  simp only [lastSegment?, h, Bool.false_and, Bool.false_eq_true, if_false]

/-- The last segment of a path is read off the lexemes outside all brackets, and other types have none. -/
theorem lastSegment?_eq {last : Option (List Char)} (h : IsType (Lexeme.ofText type) last) :
    lastSegment? type = last.map String.ofList := by
  generalize htext : Lexeme.ofText type = ls at h
  cases h with
  | @path w ls result name hword h hresult hsum =>
      obtain ⟨names, hspine, hnames⟩ := h.exists_spine
      have hpath := h.upToArrow_append result
      rw [upToArrow_result hresult, List.append_nil] at hpath
      exact lastSegment?_of_spine _ _ htext hpath (by simpa [opensPath] using hword) hnames hspine hsum
  | @rooted ls result name h hresult hsum =>
      obtain ⟨names, hspine, hnames⟩ := h.exists_spine
      have hpath : upToArrow [] (.colons :: (ls ++ result)) = .colons :: ls := by
        rw [upToArrow_cons (l := .colons) (.inr nofun), openAfter_plain isPlain_colons, h.upToArrow_append,
          upToArrow_result hresult, List.append_nil]
      refine lastSegment?_of_spine (.colons :: ls) result htext hpath rfl (fun rest => ?_)
        hspine.colons hsum
      rw [List.cons_append, outside_plain isPlain_colons, hnames, List.cons_append]
  | @qualified inner ls name hinner h =>
      obtain ⟨names, hspine, hnames⟩ := h.exists_spine
      have hangle : ('<', '>') ∈ brackets := by decide
      have hcolons : upToArrow [] (.colons :: ls) = .colons :: ls := by
        have hls := h.upToArrow_append []
        rw [List.append_nil, upToArrow_result (.inl rfl), List.append_nil] at hls
        rw [upToArrow_cons (l := .colons) (.inr nofun), openAfter_plain isPlain_colons, hls]
      refine lastSegment?_of_spine _ [] (htext.trans (List.append_nil _).symm) ?_ rfl (fun rest => ?_)
        hspine.colons nofun
      · rw [List.append_nil, upToArrow_group hangle hinner, hcolons]
      · rw [List.cons_append, List.append_assoc, List.cons_append, outside_group hangle hinner, List.cons_append,
          outside_plain isPlain_colons, hnames, List.cons_append]
  | @keyword w ls hword =>
      refine lastSegment?_of_not_opens ?_
      rw [htext, upToArrow_cons (l := .word w) (.inr nofun), opensPath]
      simpa using hword
  | @symbol c ls hc =>
      refine lastSegment?_of_not_opens ?_
      rw [htext, upToArrow_cons (l := .symbol c) (.inr nofun)]
      simp only [List.mem_cons, List.not_mem_nil, or_false] at hc
      rcases hc with rfl | rfl | rfl | rfl | rfl <;> rfl
  | @expansion ls rest name h =>
      obtain ⟨names, -, hnames⟩ := h.exists_spine
      have hmark : Lexeme.symbol '!' ∈ outside [] (upToArrow [] (Lexeme.ofText type)) := by
        rw [htext, h.upToArrow_append, upToArrow_cons (l := .symbol '!') (.inr nofun), hnames,
          outside_plain (by simp [IsPlain, brackets])]
        simp
      have hall : (outside [] (upToArrow [] (Lexeme.ofText type))).all isName = false :=
        List.all_eq_false.mpr ⟨_, hmark, nofun⟩
      rw [upToArrow, ← beforeTop] at hall
      simp [lastSegment?, hall]
  | @sum ls rest name h =>
      obtain ⟨names, -, hnames⟩ := h.exists_spine
      have hplus : Lexeme.symbol '+' ∈ outside [] (Lexeme.ofText type) := by
        rw [htext, hnames, outside_plain (by simp [IsPlain, brackets])]
        simp
      simp [lastSegment?, hplus]

/-- A type counts as an option exactly if it is a path whose last segment is called so. -/
theorem isOptionType_iff {last : Option (List Char)} (h : IsType (Lexeme.ofText type) last) :
    isOptionType type = true ↔ last = some ['O', 'p', 't', 'i', 'o', 'n'] := by
  rw [isOptionType, lastSegment?_eq h, beq_iff_eq]
  cases last with
  | none => exact iff_of_false nofun nofun
  | some name => simp [← String.toList_inj]

example : isOptionType "Vec<std::option::Option<u8>>" = false := by cbv

end CanonicalWire.Derive
