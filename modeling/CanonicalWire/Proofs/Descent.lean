import CanonicalWire.Proofs.SortedSequence
import CanonicalWire.Proofs.Suffix

/-!
Keys out of order. Entries and items that stand behind one another in any order are read back if their keys
ascend. Otherwise reading stops at the first key that does not come after the key before it, and reports where
this key stands.
-/

namespace CanonicalWire

/-! ### The first descent -/

/-- The byte string at this place does not come after the one before it. -/
def OutOfOrder (bs : List Bytes) (i : Nat) : Prop :=
  1 ≤ i ∧ ∃ earlier later, bs[i - 1]? = some earlier ∧ bs[i]? = some later ∧ ¬earlier < later

/-- How many byte strings come before the first one that does not come after the one before it. -/
def firstDescent : Option Bytes → List Bytes → Option Nat
  | _, [] => none
  | previous, b :: bs =>
      if ∀ earlier ∈ previous, earlier < b then (firstDescent (some b) bs).map (· + 1) else some 0

theorem firstDescent_eq_none {previous : Option Bytes} {bs : List Bytes} :
    firstDescent previous bs = none ↔ Decode.AscendingFrom previous bs := by
  induction bs generalizing previous with
  | nil => simp only [firstDescent, Decode.ascendingFrom_nil]
  | cons b bs ih =>
      rw [firstDescent, Decode.ascendingFrom_cons, ← ih]
      split
      case isTrue h => rw [Option.map_eq_none_iff, and_iff_right h]
      case isFalse h => exact ⟨nofun, fun hlt => absurd hlt.1 h⟩

theorem outOfOrder_one {b c : Bytes} {bs : List Bytes} : OutOfOrder (b :: c :: bs) 1 ↔ ¬b < c := by
  simp [OutOfOrder]

theorem outOfOrder_cons {b : Bytes} {bs : List Bytes} {i : Nat} :
    OutOfOrder (b :: bs) (i + 2) ↔ OutOfOrder bs (i + 1) := by
  simp [OutOfOrder]

theorem isLeast_firstDescent_some {b : Bytes} {bs : List Bytes} {i : Nat} (h : firstDescent (some b) bs = some i) :
    IsLeast {i | OutOfOrder (b :: bs) i} (i + 1) := by
  induction bs generalizing b i with
  | nil => cases h
  | cons c bs ih =>
      rw [firstDescent] at h
      split at h
      case isTrue hlt =>
        obtain ⟨j, hj, rfl⟩ := Option.map_eq_some_iff.mp h
        obtain ⟨hmem, hleast⟩ := ih hj
        refine ⟨outOfOrder_cons.mpr hmem, fun k hk => ?_⟩
        match k with
        | 0 => exact absurd hk.1 (by decide)
        | 1 => exact absurd (hlt b rfl) (outOfOrder_one.mp hk)
        | k + 2 => exact Nat.succ_le_succ (hleast (outOfOrder_cons.mp hk))
      case isFalse hnot =>
        obtain rfl := Option.some.inj h
        exact ⟨outOfOrder_one.mpr fun hlt => hnot (by simpa using hlt), fun k hk => hk.1⟩

theorem isLeast_firstDescent {bs : List Bytes} {i : Nat} (h : firstDescent none bs = some i) :
    IsLeast {i | OutOfOrder bs i} i := by
  cases bs with
  | nil => cases h
  | cons b bs =>
      rw [firstDescent, if_pos (by simp)] at h
      obtain ⟨j, hj, rfl⟩ := Option.map_eq_some_iff.mp h
      exact isLeast_firstDescent_some hj

/-! ### Reading up to the first descent -/

namespace Decode

/-- The bytes are read as `a` if there is no descent, and otherwise its index is reported. -/
def ReadsUnless {α : Type} (d : Decode α) (b : Bytes) (descent : Option Nat) (a : α) : Prop :=
  ∀ rest, d (b ++ rest) = match descent with
    | none => .ok (a, rest)
    | some i => .error (.nonCanonicalMap i)

namespace ReadsUnless

variable {α β : Type} {d : Decode α} {b c : Bytes} {descent : Option Nat} {a : α}

theorem map (h : d.ReadsUnless b descent a) (g : α → β) :
    ReadsUnless (d >>= fun a => pure (g a)) b descent (g a) := by
  intro rest
  rw [bind_apply, h]
  cases descent <;> rfl

theorem bind_of_reads {f : α → Decode β} {x : β} (hd : d.Reads b a) (hf : (f a).ReadsUnless c descent x) :
    (d >>= f).ReadsUnless (b ++ c) descent x := by
  intro rest
  rw [List.append_assoc, bind_of_ok (hd _)]
  exact hf rest

end ReadsUnless

section Loops

variable [Declarations] {t v : Ty} {item : Decode (Value t)} {value : Decode (Value v)}

theorem readsUnless_readKey {α : Type} {f : Value t × Bytes → Decode α} {x : Value t} {b c : Bytes} {a : α}
    {keys : List Bytes} {index : Nat} (hitem : item.Reads b x)
    (hf : (f (x, b)).ReadsUnless c ((firstDescent (some b) keys).map (index + 1 + ·)) a) (previous : Option Bytes) :
    (readKey item index previous >>= f).ReadsUnless (b ++ c)
      ((firstDescent previous (b :: keys)).map (index + ·)) a := by
  intro rest
  rw [bind_apply, List.append_assoc, readKey_of_ok (hitem _), firstDescent]
  split
  case isTrue =>
    have hshift : (firstDescent (some b) keys).map (index + 1 + ·) =
        ((firstDescent (some b) keys).map (· + 1)).map (index + ·) := by
      rw [Option.map_map]
      exact congrArg (Option.map · _) (funext fun i => by simp only [Function.comp_apply]; omega)
    rw [← hshift]
    exact hf rest
  case isFalse => rfl

theorem readsUnless_readSet {bs : List Bytes} {ys : List (Value t)} (h : List.Forall₂ item.Reads bs ys) :
    {n : Nat} → (hn : ys.length = n) → (index : Nat) → (previous : Option Bytes) →
      (readSet item n index previous).ReadsUnless bs.flatten ((firstDescent previous bs).map (index + ·))
        (.ofLength ys hn) := by
  induction h with
  | nil =>
      rintro _ rfl index previous rest
      rfl
  | cons hy _ ih =>
      rintro _ rfl index previous
      exact readsUnless_readKey hy ((ih rfl (index + 1) _).map _) previous

theorem readsUnless_readEntries {ps : List (Bytes × Bytes)} {fs : List (Value t × Value v)}
    (h : List.Forall₂ (fun p f => item.Reads p.1 f.1 ∧ value.Reads p.2 f.2) ps fs) :
    (index : Nat) → (previous : Option Bytes) →
      (readEntries item value fs.length index previous).ReadsUnless (ps.flatMap fun p => p.1 ++ p.2)
        ((firstDescent previous (ps.map (·.1))).map (index + ·)) (.ofList fs) := by
  induction h with
  | nil => exact fun index previous rest => rfl
  | cons hf _ ih =>
      intro index previous
      obtain ⟨hkey, hvalue⟩ := hf
      rw [List.flatMap_cons, List.append_assoc]
      exact readsUnless_readKey hkey (.bind_of_reads hvalue ((ih (index + 1) _).map _)) previous

end Loops

/-- The bytes hold keys, and are read if these ascend. Otherwise the first key out of order is reported. -/
def ReadsAscending {α : Type} (d : Decode α) (b : Bytes) (keys : List Bytes) (a : α) : Prop :=
  (Ascending keys → ∀ rest, d (b ++ rest) = .ok (a, rest)) ∧
    (¬Ascending keys → ∃ i, IsLeast {i | OutOfOrder keys i} i ∧
      ∀ rest, d (b ++ rest) = .error (.nonCanonicalMap i))

theorem ReadsUnless.ascending {α : Type} {d : Decode α} {b : Bytes} {keys : List Bytes} {a : α}
    (h : d.ReadsUnless b (firstDescent none keys) a) : d.ReadsAscending b keys a := by
  constructor
  · intro hkeys
    rw [firstDescent_eq_none.mpr (ascendingFrom_none.mpr hkeys)] at h
    exact h
  · intro hkeys
    obtain ⟨i, hi⟩ := Option.ne_none_iff_exists'.mp (mt firstDescent_eq_none.mp (mt ascendingFrom_none.mp hkeys))
    rw [hi] at h
    exact ⟨i, isLeast_firstDescent hi, h⟩

end Decode

/-! ### Maps and sets -/

section Values

variable [Declarations]

/-- Items with the bytes that each is written as, and the items that these bytes are read as. -/
structure ItemsComeBack {t : Ty} (ctx : Context) (xs : List (Value t)) (bs : List Bytes) (ys : List (Value t)) :
    Prop where
  written : Wires ctx xs bs
  read : List.Forall₂ (fun b y => t.decode ctx b = .ok (y, [])) bs ys

/-- Entries with the bytes that their keys and values are written as, and the entries that these are read as. -/
structure EntriesComeBack {k v : Ty} (ctx : Context) (es : List (Value k × Value v)) (ps : List (Bytes × Bytes))
    (fs : List (Value k × Value v)) : Prop where
  written : EntryWires ctx es ps
  read : List.Forall₂ (fun p f => k.decode ctx p.1 = .ok (f.1, []) ∧ v.decode ctx p.2 = .ok (f.2, [])) ps fs

theorem Decode.readsUnless_readMap {k v : Ty} {ctx : Context} {es : List (Value k × Value v)}
    {ps : List (Bytes × Bytes)} {fs : List (Value k × Value v)} (h : EntriesComeBack ctx es ps fs)
    (hlen : es.length < 2 ^ 32) :
    (readMap (k.decode ctx) (v.decode ctx)).ReadsUnless
      (digitsLE prefixWidth es.length ++ ps.flatMap fun p => p.1 ++ p.2) (firstDescent none (ps.map (·.1)))
      (.ofList fs) := by
  have hlength : es.length = fs.length := h.written.length_eq.trans h.read.length_eq
  have hread := h.read.imp fun p f hpf => And.intro (Ty.reads_decode hpf.1) (Ty.reads_decode hpf.2)
  have hentries := readsUnless_readEntries hread 0 none
  rw [hlength] at hlen ⊢
  simp only [Nat.zero_add, Option.map_id'] at hentries
  exact .bind_of_reads (reads_number hlen) hentries

theorem Decode.readsUnless_readItems {t : Ty} {ctx : Context} {xs : List (Value t)} {bs : List Bytes}
    {ys : List (Value t)} (h : ItemsComeBack ctx xs bs ys) (hlen : xs.length < 2 ^ 32) :
    (readItems (t.decode ctx)).ReadsUnless (digitsLE prefixWidth xs.length ++ bs.flatten) (firstDescent none bs)
      ys := by
  have hlength : xs.length = ys.length := h.written.length_eq.trans h.read.length_eq
  have hread := h.read.imp fun b y hy => Ty.reads_decode hy
  have hitems := (readsUnless_readSet hread rfl 0 none).map Items.toList
  rw [hlength] at hlen ⊢
  simp only [Nat.zero_add, Option.map_id', Items.toList_ofLength] at hitems
  exact .bind_of_reads (reads_number hlen) hitems

/-- Entries and items in any order, behind their number, are read in that order if their keys ascend, and are what a
map or set is made of. Otherwise the first key that does not come after the one before it is reported, whatever
follows. -/
theorem Ty.decode_keys [LawfulKeys] (ctx : Context) :
    (∀ (k v : Ty) (es : List (Value k × Value v)) (ps : List (Bytes × Bytes)) (fs : List (Value k × Value v)),
      EntriesComeBack ctx.element es ps fs → es.length < 2 ^ 32 →
        (Decode.readMap (k.decode ctx.element) (v.decode ctx.element)).ReadsAscending
          (digitsLE prefixWidth es.length ++ ps.flatMap fun p => p.1 ++ p.2) (ps.map (·.1)) (.ofList fs) ∧
        (∀ l, (Ty.decode (.map l k v) ctx).ReadsAscending
          (digitsLE prefixWidth es.length ++ ps.flatMap fun p => p.1 ++ p.2) (ps.map (·.1))
          (.map ((Entries.ofList fs).list l))) ∧
        ∀ table, (Ty.decode (.map (.asWritten table) k v) ctx).ReadsAscending
          (digitsLE prefixWidth es.length ++ ps.flatMap fun p => p.1 ++ p.2) (ps.map (·.1)) (.map (.ofList fs))) ∧
    ∀ (t : Ty) (xs : List (Value t)) (bs : List Bytes) (ys : List (Value t)),
      ItemsComeBack ctx.element xs bs ys → xs.length < 2 ^ 32 →
        (Decode.readItems (t.decode ctx.element)).ReadsAscending
          (digitsLE prefixWidth xs.length ++ bs.flatten) bs ys ∧
        (∀ l, (Ty.decode (.set l t) ctx).ReadsAscending (digitsLE prefixWidth xs.length ++ bs.flatten) bs
          (.setOf ys l)) ∧
        ∀ table, (Ty.decode (.set (.asWritten table) t) ctx).ReadsAscending
          (digitsLE prefixWidth xs.length ++ bs.flatten) bs (.set (.ofList ys)) := by
  constructor
  · intro k v es ps fs h hlen
    have hread := Decode.readsUnless_readMap h hlen
    have hdecode (l : Listing) := Ty.decode_map (l := l) ctx ▸ hread.map fun es => Value.map (es.list l)
    refine ⟨hread.ascending, fun l => (hdecode l).ascending, fun table => ?_⟩
    refine ⟨fun hkeys rest => ?_, (hdecode _).ascending.2⟩
    have hlist := Decode.list_of_readMap (k.canonical_decode ctx.element) (hread.ascending.1 hkeys rest) table
    have hrun := (hdecode (.asWritten table)).ascending.1 hkeys rest
    rwa [hlist] at hrun
  · intro t xs bs ys h hlen
    have hread := Decode.readsUnless_readItems h hlen
    have hdecode (l : Listing) := Ty.decode_set (l := l) ctx ▸ hread.map fun ys => Value.setOf ys l
    refine ⟨hread.ascending, fun l => (hdecode l).ascending, fun table => ?_⟩
    refine ⟨fun hkeys rest => ?_, (hdecode _).ascending.2⟩
    have hlist := Decode.setOf_of_readItems (t.canonical_decode ctx.element) (hread.ascending.1 hkeys rest) table
    have hrun := (hdecode (.asWritten table)).ascending.1 hkeys rest
    rwa [hlist] at hrun

end Values

section Words

/-- Words with a mark each, the greater one last; their bytes are in the other order. -/
def wordMarks : List (Value .u16 × Value .u8) := [(word 1, .ofByte 8), (word 256, .ofByte 7)]

def markBytes : List (Bytes × Bytes) := [([1, 0], [8]), ([0, 1], [7])]

theorem Ty.decode_keys_marks :
    EntriesComeBack (Context.start .empty).element wordMarks markBytes wordMarks ∧
      ItemsComeBack (Context.start .empty).element [word 256, word 1] [[0, 1], [1, 0]] [word 256, word 1] ∧
      (∃ i, IsLeast {i | OutOfOrder [[1, 0], [0, 1]] i} i ∧ ∀ rest,
        Ty.decode (.map (.asWritten .hash) .u16 .u8) (.start .empty) ([2, 0, 0, 0, 1, 0, 8, 0, 1, 7] ++ rest) =
          .error (.nonCanonicalMap i)) ∧
      ∀ rest, Ty.decode (.set (.asWritten .hash) .u16) (.start .empty) ([2, 0, 0, 0, 0, 1, 1, 0] ++ rest) =
        .ok (.set (.ofList [word 256, word 1]), rest) := by
  have hmarks : EntriesComeBack (Context.start .empty).element wordMarks markBytes wordMarks :=
    ⟨.cons ⟨rfl, rfl⟩ (.cons ⟨rfl, rfl⟩ .nil), .cons ⟨by cbv, by cbv⟩ (.cons ⟨by cbv, by cbv⟩ .nil)⟩
  have hwords : ItemsComeBack (Context.start .empty).element [word 256, word 1] [[0, 1], [1, 0]]
      [word 256, word 1] := ⟨.cons rfl (.cons rfl .nil), .cons (by cbv) (.cons (by cbv) .nil)⟩
  obtain ⟨hmap, hset⟩ := Ty.decode_keys (.start .empty)
  obtain ⟨-, -, hhashMap⟩ := hmap _ _ _ _ _ hmarks (by decide)
  obtain ⟨-, -, hhashSet⟩ := hset _ _ _ _ hwords (by decide)
  exact ⟨hmarks, hwords, (hhashMap .hash).2 (by decide), (hhashSet .hash).1 (by decide)⟩

end Words

end CanonicalWire
