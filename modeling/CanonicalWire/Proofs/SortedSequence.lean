import CanonicalWire.Proofs.Deque
import CanonicalWire.Proofs.Recursion

/-!
Maps and sets as sequences. A set is written as the sequence of its items in the order of their bytes, and a map as
the sequence of its entries, each a pair, in the order of the bytes of their keys. What is read as a set or as a map
is what is read as such a sequence and strictly ascends.
-/

namespace CanonicalWire

namespace Decode

/-! ### Reading one after the other -/

variable {α β : Type} {t k v : Ty} {ctx : Context}

/-- The action, run once for each item on what the item before it left over, returns the items. -/
def ReadsAll (d : Decode α) : List α → Bytes → Bytes → Prop
  | [], input, rest => input = rest
  | x :: xs, input, rest => ∃ middle, d input = .ok (x, middle) ∧ ReadsAll d xs middle rest

theorem readsAll_map {d : Decode α} {g : α → β} (hg : Function.Injective g) {xs : List α} {input rest : Bytes} :
    ReadsAll (d >>= fun a => pure (g a)) (xs.map g) input rest ↔ ReadsAll d xs input rest := by
  induction xs generalizing input with
  | nil => rfl
  | cons x xs ih =>
      rw [List.map_cons, ReadsAll, ReadsAll]
      apply exists_congr
      intro middle
      rw [ih, bind_pure_eq_ok hg]

/-! ### Collections behind their number -/

/-- The number that the input begins with keeps within the ceiling. -/
def CountFits (ctx : Context) (input : Bytes) : Prop :=
  ∀ n rest, readLen input = .ok (n, rest) → n ≤ ctx.limits.maxBytesLen

theorem readLen_bind_eq_ok {γ : Nat → Type} {loop : (n : Nat) → Decode (γ n)} {g : {n : Nat} → γ n → β}
    {input rest : Bytes} {b : β} :
    (readLen >>= fun n => loop n >>= fun xs => pure (g xs)) input = .ok (b, rest) ↔
      ∃ n middle, readLen input = .ok (n, middle) ∧ ∃ xs, loop n middle = .ok (xs, rest) ∧ g xs = b := by
  constructor
  · intro h
    obtain ⟨⟨n, middle⟩, hlen, h⟩ := bind_eq_ok.mp h
    obtain ⟨⟨xs, left⟩, hxs, ⟨⟩⟩ := bind_eq_ok.mp h
    exact ⟨n, middle, hlen, xs, hxs, rfl⟩
  · rintro ⟨n, middle, hlen, xs, hxs, rfl⟩
    exact bind_eq_ok.mpr ⟨(n, middle), hlen, bind_eq_ok.mpr ⟨(xs, rest), hxs, rfl⟩⟩

/-! ### Ascending items -/

variable [Declarations]

/-- Items that are written in ascending order and after the bytes given. -/
def WrittenAscending (ctx : Context) (previous : Option Bytes) (xs : List (Value t)) : Prop :=
  ∃ bs, Wires ctx xs bs ∧ AscendingFrom previous bs

theorem writtenAscending_nil (previous : Option Bytes) : WrittenAscending ctx previous ([] : List (Value t)) :=
  ⟨[], .nil, ascendingFrom_nil previous⟩

theorem writtenAscending_cons {previous : Option Bytes} {x : Value t} {xs : List (Value t)} :
    WrittenAscending ctx previous (x :: xs) ↔ ∃ b, x.wire ctx = .ok b ∧ (∀ earlier ∈ previous, earlier < b) ∧
      WrittenAscending ctx (some b) xs := by
  constructor
  · rintro ⟨_, hxs, hascending⟩
    obtain ⟨b, bs, hb, hbs, rfl⟩ := List.forall₂_cons_left_iff.mp hxs
    obtain ⟨hlt, hascending⟩ := ascendingFrom_cons.mp hascending
    exact ⟨b, hb, hlt, bs, hbs, hascending⟩
  · rintro ⟨b, hb, hlt, bs, hbs, hascending⟩
    exact ⟨b :: bs, .cons hb hbs, ascendingFrom_cons.mpr ⟨hlt, hascending⟩⟩

/-! ### The loops -/

theorem weighed_of_le (item : Decode (Value t)) {count : Nat} (h : count ≤ ctx.limits.maxBytesLen) :
    weighed item count ctx = item := by
  funext input
  rw [weighed, checkLength_of_le h]
  cases item input with
  | error e => rfl
  | ok r => exact ite_self _

theorem readEach_eq_ok {item : Decode (Value t)} {count : Nat} (h : count ≤ ctx.limits.maxBytesLen) {n : Nat}
    {ys : List (Value t)} {input rest : Bytes} :
    (∃ xs, readEach item count ctx n input = .ok (xs, rest) ∧ xs.toList = ys) ↔
      ys.length = n ∧ ReadsAll item ys input rest := by
  induction n generalizing ys input with
  | zero =>
      constructor
      · rintro ⟨_, ⟨⟩, rfl⟩
        exact ⟨rfl, rfl⟩
      · rintro ⟨hlength, hall⟩
        obtain rfl := List.eq_nil_of_length_eq_zero hlength
        exact ⟨.nil, congrArg (fun left => Except.ok (Items.nil, left)) hall, rfl⟩
  | succ n ih =>
      rw [readEach_succ, weighed_of_le item h]
      constructor
      · rintro ⟨xs, hrun, rfl⟩
        obtain ⟨⟨x, middle⟩, hx, hrun⟩ := bind_eq_ok.mp hrun
        obtain ⟨⟨zs, left⟩, hzs, ⟨⟩⟩ := bind_eq_ok.mp hrun
        obtain ⟨hlength, hall⟩ := ih.mp ⟨zs, hzs, rfl⟩
        exact ⟨congrArg (· + 1) hlength, middle, hx, hall⟩
      · rintro ⟨hlength, hall⟩
        obtain ⟨y, ys, rfl⟩ := List.exists_cons_of_length_eq_add_one hlength
        obtain ⟨middle, hy, hall⟩ := hall
        obtain ⟨xs, hxs, rfl⟩ := ih.mpr ⟨Nat.succ.inj hlength, hall⟩
        exact ⟨.cons y xs, bind_eq_ok.mpr ⟨(y, middle), hy, bind_eq_ok.mpr ⟨(xs, rest), hxs, rfl⟩⟩, rfl⟩

/-- A key is accepted with its bytes, if these come after those of the key before it. -/
theorem readKey_bind_eq_ok {item : Decode (Value t)} (hitem : item.Canonical ctx) {index : Nat}
    {previous : Option Bytes} {f : Value t × Bytes → Decode α} {input rest : Bytes} {a : α} :
    (readKey item index previous >>= f) input = .ok (a, rest) ↔ ∃ x b middle, item input = .ok (x, middle) ∧
      x.wire ctx = .ok b ∧ (∀ earlier ∈ previous, earlier < b) ∧ f (x, b) middle = .ok (a, rest) := by
  rw [bind_apply, bind_eq_ok]
  constructor
  · rintro ⟨⟨⟨x, b⟩, middle⟩, hkey, hrun⟩
    cases hitemRun : item input with
    | error e => exact absurd (hkey.symm.trans (readKey_of_error hitemRun index previous)) nofun
    | ok r =>
        obtain ⟨y, left⟩ := r
        obtain ⟨taken, rfl, hwire⟩ := hitem _ _ _ hitemRun
        rw [readKey_of_ok hitemRun] at hkey
        split at hkey
        case isTrue hlt =>
          cases hkey
          exact ⟨x, b, middle, rfl, hwire, hlt, hrun⟩
        case isFalse => cases hkey
  · rintro ⟨x, b, middle, hx, hb, hlt, hrun⟩
    obtain ⟨taken, rfl, hwire⟩ := hitem _ _ _ hx
    obtain rfl := Except.ok.inj (hb.symm.trans hwire)
    refine ⟨((x, b), middle), ?_, hrun⟩
    rw [readKey_of_ok hx, if_pos hlt]

theorem readSet_eq_ok {item : Decode (Value t)} (hitem : item.Canonical ctx) {n index : Nat}
    {previous : Option Bytes} {ys : List (Value t)} {input rest : Bytes} :
    (∃ xs, readSet item n index previous input = .ok (xs, rest) ∧ xs.toList = ys) ↔
      ys.length = n ∧ ReadsAll item ys input rest ∧ WrittenAscending ctx previous ys := by
  induction n generalizing index previous ys input with
  | zero =>
      constructor
      · rintro ⟨_, ⟨⟩, rfl⟩
        exact ⟨rfl, rfl, writtenAscending_nil previous⟩
      · rintro ⟨hlength, hall, -⟩
        obtain rfl := List.eq_nil_of_length_eq_zero hlength
        exact ⟨.nil, congrArg (fun left => Except.ok (Items.nil, left)) hall, rfl⟩
  | succ n ih =>
      constructor
      · rintro ⟨xs, hrun, rfl⟩
        obtain ⟨x, b, middle, hx, hb, hlt, hrun⟩ := (readKey_bind_eq_ok hitem).mp hrun
        obtain ⟨⟨zs, left⟩, hzs, ⟨⟩⟩ := bind_eq_ok.mp hrun
        obtain ⟨hlength, hall, hascending⟩ := ih.mp ⟨zs, hzs, rfl⟩
        exact ⟨congrArg (· + 1) hlength, ⟨middle, hx, hall⟩, writtenAscending_cons.mpr ⟨b, hb, hlt, hascending⟩⟩
      · rintro ⟨hlength, hall, hascending⟩
        obtain ⟨y, ys, rfl⟩ := List.exists_cons_of_length_eq_add_one hlength
        obtain ⟨middle, hy, hall⟩ := hall
        obtain ⟨b, hb, hlt, hascending⟩ := writtenAscending_cons.mp hascending
        obtain ⟨xs, hxs, rfl⟩ := ih.mpr ⟨Nat.succ.inj hlength, hall, hascending⟩
        refine ⟨.cons y xs, (readKey_bind_eq_ok hitem).mpr ⟨y, b, middle, hy, hb, hlt, ?_⟩, rfl⟩
        exact bind_eq_ok.mpr ⟨(xs, rest), hxs, rfl⟩

/-- Reads a key and a value. -/
def readBoth (key : Decode (Value k)) (value : Decode (Value v)) : Decode (Value k × Value v) := do
  let x ← key
  let y ← value
  return (x, y)

theorem readBoth_eq_ok {key : Decode (Value k)} {value : Decode (Value v)} {x : Value k} {y : Value v}
    {input rest : Bytes} : readBoth key value input = .ok ((x, y), rest) ↔
      ∃ middle, key input = .ok (x, middle) ∧ value middle = .ok (y, rest) := by
  constructor
  · intro h
    obtain ⟨⟨x', middle⟩, hx, h⟩ := bind_eq_ok.mp h
    obtain ⟨⟨y', left⟩, hy, ⟨⟩⟩ := bind_eq_ok.mp h
    exact ⟨middle, hx, hy⟩
  · rintro ⟨middle, hx, hy⟩
    exact bind_eq_ok.mpr ⟨(x, middle), hx, bind_eq_ok.mpr ⟨(y, rest), hy, rfl⟩⟩

theorem readEntries_eq_ok {key : Decode (Value k)} {value : Decode (Value v)} (hkey : key.Canonical ctx)
    {n index : Nat} {previous : Option Bytes} {fs : List (Value k × Value v)} {input rest : Bytes} :
    (∃ es, readEntries key value n index previous input = .ok (es, rest) ∧ es.toList = fs) ↔
      fs.length = n ∧ ReadsAll (readBoth key value) fs input rest ∧
        WrittenAscending ctx previous (fs.map Prod.fst) := by
  induction n generalizing index previous fs input with
  | zero =>
      constructor
      · rintro ⟨_, ⟨⟩, rfl⟩
        exact ⟨rfl, rfl, writtenAscending_nil previous⟩
      · rintro ⟨hlength, hall, -⟩
        obtain rfl := List.eq_nil_of_length_eq_zero hlength
        exact ⟨.nil, congrArg (fun left => Except.ok (Entries.nil, left)) hall, rfl⟩
  | succ n ih =>
      constructor
      · rintro ⟨es, hrun, rfl⟩
        obtain ⟨x, b, middle, hx, hb, hlt, hrun⟩ := (readKey_bind_eq_ok hkey).mp hrun
        obtain ⟨⟨y, left⟩, hy, hrun⟩ := bind_eq_ok.mp hrun
        obtain ⟨⟨gs, _⟩, hgs, ⟨⟩⟩ := bind_eq_ok.mp hrun
        obtain ⟨hlength, hall, hascending⟩ := ih.mp ⟨gs, hgs, rfl⟩
        exact ⟨congrArg (· + 1) hlength, ⟨left, readBoth_eq_ok.mpr ⟨middle, hx, hy⟩, hall⟩,
          writtenAscending_cons.mpr ⟨b, hb, hlt, hascending⟩⟩
      · rintro ⟨hlength, hall, hascending⟩
        obtain ⟨⟨x, y⟩, fs, rfl⟩ := List.exists_cons_of_length_eq_add_one hlength
        obtain ⟨left, hboth, hall⟩ := hall
        obtain ⟨middle, hx, hy⟩ := readBoth_eq_ok.mp hboth
        obtain ⟨b, hb, hlt, hascending⟩ := writtenAscending_cons.mp hascending
        obtain ⟨es, hes, rfl⟩ := ih.mpr ⟨Nat.succ.inj hlength, hall, hascending⟩
        refine ⟨.cons x y es, (readKey_bind_eq_ok hkey).mpr ⟨x, b, middle, hx, hb, hlt, ?_⟩, rfl⟩
        exact bind_eq_ok.mpr ⟨(y, left), hy, bind_eq_ok.mpr ⟨(es, rest), hes, rfl⟩⟩

/-! ### Items of type `u8` -/

theorem reads_decode_byte (b : UInt8) : (Ty.byte.decode ctx).Reads [b] (.ofByte b) := by
  have hb : digitsLE 1 b.toBitVec.toNat = [b] := congrArg ([·]) UInt8.ofNat_toNat
  have hread := (reads_readInt (k := .u8) b.toBitVec).map (Value.scalar (s := .int .u8))
  rw [Ty.decode_eq, ← hb]
  exact hread

theorem canonical_byte (ctx : Context) : (Ty.byte.decode ctx).Canonical ctx := by
  rw [Ty.decode_eq]
  exact .map (Scalar.accepts_decode (.int .u8) ctx)

theorem readsAll_byte {ys : List (Value .byte)} {input rest : Bytes} :
    ReadsAll (Ty.byte.decode ctx) ys input rest ↔ ∃ bs : Bytes, ys = bs.map .ofByte ∧ input = bs ++ rest := by
  induction ys generalizing input with
  | nil =>
      constructor
      · intro h
        exact ⟨[], rfl, h⟩
      · rintro ⟨bs, hbs, rfl⟩
        obtain rfl := List.map_eq_nil_iff.mp hbs.symm
        rfl
  | cons y ys ih =>
      constructor
      · rintro ⟨middle, hy, hall⟩
        obtain ⟨bs, rfl, rfl⟩ := ih.mp hall
        obtain ⟨taken, rfl, hwire⟩ := canonical_byte ctx _ _ _ hy
        obtain ⟨b, rfl, -⟩ := y.eq_ofByte
        obtain rfl := Except.ok.inj ((Value.wire_byte b ctx).symm.trans hwire)
        exact ⟨b :: bs, rfl, rfl⟩
      · rintro ⟨bs, hbs, rfl⟩
        obtain ⟨b, bs, rfl, rfl, rfl⟩ := List.map_eq_cons_iff.mp hbs.symm
        exact ⟨bs ++ rest, reads_decode_byte b _, ih.mpr ⟨bs, rfl, rfl⟩⟩

theorem readBlock_eq_ok {n : Nat} (h : n ≤ ctx.limits.maxBytesLen) {ys : List (Value .byte)} {input rest : Bytes} :
    (∃ xs, readBlock n ctx input = .ok (xs, rest) ∧ xs.toList = ys) ↔
      ys.length = n ∧ ReadsAll (Ty.byte.decode ctx) ys input rest := by
  rw [readBlock_of_le h, readsAll_byte]
  constructor
  · rintro ⟨xs, hread, rfl⟩
    obtain ⟨⟨block, left⟩, htake, ⟨⟩⟩ := bind_eq_ok.mp hread
    obtain ⟨taken, rfl, rfl⟩ := accepts_take n _ _ _ htake
    rw [Items.toList_ofBlock, List.length_map]
    exact ⟨block.length_eq, block.bytes, rfl, rfl⟩
  · rintro ⟨hlength, bs, rfl, rfl⟩
    rw [List.length_map] at hlength
    exact ⟨.ofBlock ⟨bs, hlength⟩, (reads_take ⟨bs, hlength⟩).map _ rest, Items.toList_ofBlock _⟩

theorem readRun_eq_ok {n : Nat} (h : n ≤ ctx.limits.maxBytesLen) {ys : List (Value t)} {input rest : Bytes} :
    (∃ xs, readRun t (t.decode ctx) n ctx input = .ok (xs, rest) ∧ xs.toList = ys) ↔
      ys.length = n ∧ ReadsAll (t.decode ctx) ys input rest := by
  by_cases ht : t = .byte
  · subst ht
    exact readBlock_eq_ok h
  · rw [readRun_of_ne ht]
    exact readEach_eq_ok h

end Decode

/-- The members of a tuple are in the context of the items around it if there is no enum group. -/
theorem Context.bare_element {ctx : Context} (h : ctx.variants = none) : ctx.element.bare = ctx.element := by
  simp [bare, element, h]

theorem ascending_iff_isChain {bs : List Bytes} : Ascending bs ↔ bs.IsChain (· < ·) := by
  have htrans : IsTrans Bytes (· < ·) := ⟨fun _ _ _ => List.lt_trans⟩
  exact List.isChain_iff_pairwise.symm

section Collections

variable [Declarations] {t k v : Ty} {n : Nat} {ctx : Context} {input rest : Bytes}

theorem Value.sequence_eq_iff {s : SequenceKind} {xs : Items t n} {ys : List (Value t)} :
    (sequence xs : Value (.sequence s t)) = sequence (.ofList ys) ↔ xs.toList = ys := by
  constructor
  · rintro ⟨⟩
    exact Items.toList_ofList ys
  · intro h
    exact Items.apply_eq_of_toList sequence (h.trans (Items.toList_ofList ys).symm)

theorem Value.set_eq_iff {l : Listing} {xs : Items t n} {ys : List (Value t)} :
    (set xs : Value (.set l t)) = set (.ofList ys) ↔ xs.toList = ys := by
  constructor
  · rintro ⟨⟩
    exact Items.toList_ofList ys
  · intro h
    exact Items.apply_eq_of_toList set (h.trans (Items.toList_ofList ys).symm)

theorem Entries.toList_ofList : (es : List (Value k × Value v)) → (ofList es).toList = es
  | [] => rfl
  | e :: es => congrArg (e :: ·) (Entries.toList_ofList es)

theorem Entries.ofList_toList : (es : Entries k v) → ofList es.toList = es
  | .nil => rfl
  | .cons key value rest => congrArg (Entries.cons key value) rest.ofList_toList

theorem Ty.decode_sequence_eq_ok {s : SequenceKind} (hfixed : ctx.fixedLen = none) (hcount : Decode.CountFits ctx input)
    {ys : List (Value t)} : Ty.decode (.sequence s t) ctx input = .ok (.sequence (.ofList ys), rest) ↔
      ∃ middle, Decode.readLen input = .ok (ys.length, middle) ∧ (t.decode ctx.element).ReadsAll ys middle rest := by
  have hreadCount : Decode.readCount ctx = Decode.readLen := by rw [Decode.readCount, hfixed]
  have hfits {n : Nat} {middle : Bytes} (hlen : Decode.readLen input = .ok (n, middle)) :
      n ≤ ctx.element.limits.maxBytesLen := hcount n middle hlen
  rw [Ty.decode_sequence, hreadCount, Decode.readLen_bind_eq_ok]
  simp only [Value.sequence_eq_iff]
  constructor
  · rintro ⟨n, middle, hlen, hrun⟩
    obtain ⟨rfl, hall⟩ := (Decode.readRun_eq_ok (hfits hlen)).mp hrun
    exact ⟨middle, hlen, hall⟩
  · rintro ⟨middle, hlen, hall⟩
    exact ⟨_, middle, hlen, (Decode.readRun_eq_ok (hfits hlen)).mpr ⟨rfl, hall⟩⟩

/-! ### Pairs -/

/-- A key and a value as a tuple. -/
def Value.pair (x : Value k) (y : Value v) : Value (.tuple [k, v]) := .record (.cons x (.cons y .nil))

theorem Value.pair_injective : Function.Injective fun e : Value k × Value v => pair e.1 e.2 := by
  rintro ⟨x, y⟩ ⟨x', y'⟩ ⟨⟩
  rfl

theorem Value.wire_pair {x : Value k} {y : Value v} {b c : Bytes} (hx : x.wire ctx.bare = .ok b)
    (hy : y.wire ctx.bare = .ok c) : (pair x y).wire ctx = .ok (b ++ c) := by
  have hnil : Record.nil.wire none ctx = .ok [] := rfl
  have hvalue : (@Record.cons _ "" .none v .nil y .nil).wire none ctx = .ok c :=
    Record.wire_cons.mpr ⟨ctx.bare, c, [], rfl, hy, hnil, (List.append_nil c).symm⟩
  exact Record.wire_cons.mpr ⟨ctx.bare, b, c, rfl, hx, hvalue, rfl⟩

theorem Ty.decode_pair (ctx : Context) : Ty.decode (.tuple [k, v]) ctx =
    Decode.readBoth (k.decode ctx.bare) (v.decode ctx.bare) >>= fun e => pure (.pair e.1 e.2) := by
  rw [k.decode_eq, v.decode_eq, Ty.decode_eq]
  calc Ty.decodeWith decodeBody (.tuple [k, v]) ctx
    _ = (k.decodeWith decodeBody ctx.bare >>= fun x =>
          (v.decodeWith decodeBody ctx.bare >>= fun y => pure .nil >>= fun xs => pure (.cons y xs)) >>= fun xs =>
            pure (.cons x xs)) >>= fun xs => pure (.record xs) := rfl
    _ = Decode.readBoth (k.decodeWith decodeBody ctx.bare) (v.decodeWith decodeBody ctx.bare) >>= fun e =>
        pure (.pair e.1 e.2) := by
      simp only [Decode.readBoth, bind_assoc, pure_bind]
      rfl

/-! ### The order of bytes -/

/-- The bytes that a value is written as, and none if it is not written. -/
def Value.wireBytes (x : Value t) (ctx : Context) : Bytes := (x.wire ctx).toOption.getD []

theorem Value.wireBytes_of_ok {x : Value t} {b : Bytes} (h : x.wire ctx = .ok b) : x.wireBytes ctx = b := by
  rw [wireBytes, h]
  rfl

/-- Things in the order of the bytes of their keys. Those with equal bytes stay in the order given. -/
def sortByWire {α : Type} (ctx : Context) (key : α → Value k) (xs : List α) : List α :=
  xs.mergeSort fun a b => !decide ((key b).wireBytes ctx < (key a).wireBytes ctx)

theorem forall₂_sortByWire {α β : Type} {r : α → β → Prop} {key : α → Value k} {bytes : β → Bytes} {xs : List α}
    {ys : List β} (h : List.Forall₂ r xs ys) (hbytes : ∀ x y, r x y → (key x).wire ctx = .ok (bytes y)) :
    List.Forall₂ r (sortByWire ctx key xs) (ys.mergeSort fun a b => !decide (bytes b < bytes a)) := by
  obtain ⟨hlength, hr⟩ := List.forall₂_iff_zip.mp h
  -- both lists are sorted as the list of their pairs is
  have hxs : ((xs.zip ys).mergeSort fun a b => !decide (bytes b.2 < bytes a.2)).map Prod.fst =
      sortByWire ctx key xs := by
    rw [List.map_mergeSort, List.map_fst_zip hlength.le]
    · rfl
    · intro a ha b hb
      rw [Value.wireBytes_of_ok (hbytes _ _ (hr ha)), Value.wireBytes_of_ok (hbytes _ _ (hr hb))]
  have hys : ((xs.zip ys).mergeSort fun a b => !decide (bytes b.2 < bytes a.2)).map Prod.snd =
      ys.mergeSort fun a b => !decide (bytes b < bytes a) := by
    rw [List.map_mergeSort, List.map_snd_zip hlength.ge]
    exact fun _ _ _ _ => rfl
  rw [← hxs, ← hys, List.forall₂_map_left_iff, List.forall₂_map_right_iff, List.forall₂_same]
  intro a ha
  exact hr ((List.mergeSort_perm ..).mem_iff.mp ha)

theorem Decode.writtenAscending_none {xs : List (Value t)} :
    WrittenAscending ctx none xs ↔ ∃ bs, Wires ctx xs bs ∧ bs.IsChain (· < ·) :=
  exists_congr fun _ => and_congr_right fun _ => ascending_iff_isChain

/-! ### Collections as sequences -/

/-- Collections stand for the sequences of their items in the order of the bytes of their keys. -/
structure SortedSequence {α : Type} {c : Listing → Ty} {k u : Ty} (ctx : Context)
    (collection : (l : Listing) → List α → Value (c l)) (key : α → Value k) (item : α → Value u) : Prop where
  written : ∀ (l : Listing) (s : SequenceKind) (xs : List α) (b : Bytes),
    (u = .byte → xs.length ≤ ctx.limits.maxBytesLen) → (collection l xs).wire ctx = .ok b →
      (Value.sequence (.ofList ((sortByWire ctx.element key xs).map item)) : Value (.sequence s u)).wire ctx = .ok b
  read : ∀ (table : Table) (s : SequenceKind) (input rest : Bytes) (ys : List α), Decode.CountFits ctx input →
    ((c (.asWritten table)).decode ctx input = .ok (collection (.asWritten table) ys, rest) ↔
      Ty.decode (.sequence s u) ctx input = .ok (.sequence (.ofList (ys.map item)), rest) ∧
        ∃ bs, Wires ctx.element (ys.map key) bs ∧ bs.IsChain (· < ·))

theorem wire_sequence_ofList {s : SequenceKind} (hfixed : ctx.fixedLen = none) {xs : List (Value t)} {bs : List Bytes}
    {u : Bytes} (hcount : t = .byte → xs.length ≤ ctx.limits.maxBytesLen) (hbs : Wires ctx.element xs bs)
    (hu : (Encode.writeLen bs.length).bytes = .ok u) :
    (Value.sequence (.ofList xs) : Value (.sequence s t)).wire ctx = .ok (u ++ bs.flatten) := by
  have hcountWritten : Encode.writeCount xs.length ctx = Encode.writeLen bs.length := by
    rw [Encode.writeCount, hfixed, hbs.length_eq]
  refine Value.wire_sequence.mpr ⟨u, bs.flatten, hcountWritten ▸ hu, ?_, rfl⟩
  exact Items.wire_eq_ok.mpr ⟨hcount, bs, (Items.toList_ofList xs).symm ▸ hbs, rfl⟩

/-! ### Decoded maps and sets -/

theorem Decode.readItems_eq_ok {item : Decode (Value t)} (hitem : item.Canonical ctx) {ys : List (Value t)} :
    readItems item input = .ok (ys, rest) ↔
      (∃ middle, readLen input = .ok (ys.length, middle) ∧ ReadsAll item ys middle rest) ∧
        WrittenAscending ctx none ys := by
  rw [readItems, readLen_bind_eq_ok]
  constructor
  · rintro ⟨n, middle, hlen, hrun⟩
    obtain ⟨rfl, hall, hascending⟩ := (readSet_eq_ok hitem).mp hrun
    exact ⟨⟨middle, hlen, hall⟩, hascending⟩
  · rintro ⟨⟨middle, hlen, hall⟩, hascending⟩
    exact ⟨_, middle, hlen, (readSet_eq_ok hitem).mpr ⟨rfl, hall, hascending⟩⟩

theorem Decode.readMap_eq_ok {key : Decode (Value k)} {value : Decode (Value v)} (hkey : key.Canonical ctx)
    {es : Entries k v} : readMap key value input = .ok (es, rest) ↔
      (∃ middle, readLen input = .ok (es.toList.length, middle) ∧ ReadsAll (readBoth key value) es.toList middle rest) ∧
        WrittenAscending ctx none (es.toList.map Prod.fst) := by
  rw [readMap, bind_apply, bind_eq_ok]
  constructor
  · rintro ⟨⟨n, middle⟩, hlen, hrun⟩
    obtain ⟨rfl, hall, hascending⟩ := (readEntries_eq_ok hkey).mp ⟨es, hrun, rfl⟩
    exact ⟨⟨middle, hlen, hall⟩, hascending⟩
  · rintro ⟨⟨middle, hlen, hall⟩, hascending⟩
    obtain ⟨fs, hfs, hlist⟩ := (readEntries_eq_ok hkey).mpr ⟨rfl, hall, hascending⟩
    obtain rfl : fs = es := by rw [← fs.ofList_toList, hlist, es.ofList_toList]
    exact ⟨(_, middle), hlen, hfs⟩

variable [LawfulKeys]

/-- No item that is read gets lost as the items are collected. -/
theorem Decode.setOf_of_readItems {item : Decode (Value t)} (hitem : item.Canonical ctx) {xs : List (Value t)}
    (h : readItems item input = .ok (xs, rest)) (table : Table) :
    Value.setOf xs (.asWritten table) = .set (.ofList xs) := by
  obtain ⟨-, bs, hbs, hascending⟩ := (readItems_eq_ok hitem).mp h
  rw [Value.setOf, Items.list, Items.collect_eq (hbs.pairwise_compare_ne (ascendingFrom_none.mp hascending).nodup)]

theorem Decode.list_of_readMap {key : Decode (Value k)} {value : Decode (Value v)} (hkey : key.Canonical ctx)
    {es : Entries k v} (h : readMap key value input = .ok (es, rest)) (table : Table) :
    es.list (.asWritten table) = es := by
  obtain ⟨-, bs, hbs, hascending⟩ := (readMap_eq_ok hkey).mp h
  have hne := List.pairwise_map.mp (hbs.pairwise_compare_ne (ascendingFrom_none.mp hascending).nodup)
  rw [Entries.list, ← Entries.ofList_toList (Entries.collect _), Entries.toList_collect hne, es.ofList_toList]

theorem Ty.decode_set_eq_ok {table : Table} {ys : List (Value t)} :
    Ty.decode (.set (.asWritten table) t) ctx input = .ok (.set (.ofList ys), rest) ↔
      (∃ middle, Decode.readLen input = .ok (ys.length, middle) ∧ (t.decode ctx.element).ReadsAll ys middle rest) ∧
        Decode.WrittenAscending ctx.element none ys := by
  have hitem := t.canonical_decode ctx.element
  rw [Ty.decode_set, ← Decode.readItems_eq_ok hitem, Decode.bind_apply, bind_eq_ok]
  constructor
  · rintro ⟨⟨xs, left⟩, hxs, heq⟩
    rw [Decode.setOf_of_readItems hitem hxs] at heq
    obtain ⟨hset, rfl⟩ := Prod.mk.inj (Except.ok.inj heq)
    rw [Value.set_eq_iff, Items.toList_ofList] at hset
    exact hset ▸ hxs
  · intro hys
    refine ⟨(ys, rest), hys, ?_⟩
    rw [Decode.setOf_of_readItems hitem hys]
    rfl

theorem Ty.decode_map_eq_ok {table : Table} {fs : List (Value k × Value v)} :
    Ty.decode (.map (.asWritten table) k v) ctx input = .ok (.map (.ofList fs), rest) ↔
      (∃ middle, Decode.readLen input = .ok (fs.length, middle) ∧
        (Decode.readBoth (k.decode ctx.element) (v.decode ctx.element)).ReadsAll fs middle rest) ∧
        Decode.WrittenAscending ctx.element none (fs.map Prod.fst) := by
  have hkey := k.canonical_decode ctx.element
  have hread : Decode.readMap (k.decode ctx.element) (v.decode ctx.element) input = .ok (.ofList fs, rest) ↔ _ :=
    Decode.readMap_eq_ok hkey
  rw [Entries.toList_ofList] at hread
  rw [Ty.decode_map, ← hread, Decode.bind_apply, bind_eq_ok]
  constructor
  · rintro ⟨⟨es, left⟩, hes, heq⟩
    rw [Decode.list_of_readMap hkey hes] at heq
    obtain ⟨hmap, rfl⟩ := Prod.mk.inj (Except.ok.inj heq)
    cases Value.map.inj hmap
    exact hes
  · intro hfs
    refine ⟨(.ofList fs, rest), hfs, ?_⟩
    rw [Decode.list_of_readMap hkey hfs]
    rfl

/-! ### The two kinds of collection -/

theorem sortedSequence_set (hfixed : ctx.fixedLen = none) (t : Ty) :
    SortedSequence ctx (fun l (xs : List (Value t)) => (.set (.ofList xs) : Value (.set l t))) id id where
  written l s xs b hcount hwire := by
    obtain ⟨bs, u, hbs, hu, rfl⟩ := Value.wire_set.mp hwire
    rw [Items.toList_ofList] at hbs
    have hsorted : Wires ctx.element (sortByWire ctx.element id xs) (sortBytes bs) :=
      forall₂_sortByWire hbs fun _ _ h => h
    rw [List.map_id]
    apply wire_sequence_ofList hfixed _ hsorted
    · rwa [(sortBytes_perm bs).length_eq]
    · rwa [sortByWire, List.length_mergeSort]
  read table s input rest ys hcount := by
    rw [List.map_id, Ty.decode_set_eq_ok, Ty.decode_sequence_eq_ok hfixed hcount, Decode.writtenAscending_none]

theorem sortedSequence_map (hfixed : ctx.fixedLen = none) (hvariants : ctx.variants = none) (k v : Ty) :
    SortedSequence ctx (fun l (es : List (Value k × Value v)) => (.map (.ofList es) : Value (.map l k v)))
      Prod.fst fun e => .pair e.1 e.2 where
  written l s es b hcount hwire := by
    obtain ⟨ps, u, hps, hu, rfl⟩ := Value.wire_map.mp hwire
    rw [Entries.toList_ofList] at hps
    have hsorted : EntryWires ctx.element (sortByWire ctx.element Prod.fst es) (sortByKey ps) :=
      forall₂_sortByWire hps fun _ _ h => h.1
    have hpairs : Wires ctx.element ((sortByWire ctx.element Prod.fst es).map fun e => Value.pair e.1 e.2)
        ((sortByKey ps).map fun p => p.1 ++ p.2) := by
      rw [Wires, List.forall₂_map_left_iff, List.forall₂_map_right_iff]
      refine hsorted.imp fun e p h => ?_
      rw [← Context.bare_element hvariants] at h
      exact Value.wire_pair h.1 h.2
    rw [List.flatMap_def]
    apply wire_sequence_ofList hfixed _ hpairs
    · rwa [List.length_map, (sortByKey_perm ps).length_eq]
    · intro hpair
      cases hpair
  read table s input rest es hcount := by
    rw [Ty.decode_map_eq_ok, Ty.decode_sequence_eq_ok hfixed hcount, Decode.writtenAscending_none, Ty.decode_pair,
      Context.bare_element hvariants, List.length_map]
    simp only [Decode.readsAll_map Value.pair_injective]

/-- Where the length is not fixed, a set is the sequence of its items in the order of their bytes. Where there is no
enum group either, a map is the sequence of its entries in the order of the bytes of their keys. -/
theorem Context.sortedSequence (ctx : Context) (hfixed : ctx.fixedLen = none) :
    (∀ t, SortedSequence ctx (fun l (xs : List (Value t)) => (.set (.ofList xs) : Value (.set l t))) id id) ∧
      (ctx.variants = none → ∀ k v,
        SortedSequence ctx (fun l (es : List (Value k × Value v)) => (.map (.ofList es) : Value (.map l k v)))
          Prod.fst fun e => .pair e.1 e.2) :=
  ⟨sortedSequence_set hfixed, sortedSequence_map hfixed⟩

end Collections

section Words

/-- The bytes of 256 come before those of 1. -/
theorem Context.sortedSequence_words :
    (Context.start .empty).fixedLen = none ∧ (Context.start .empty).variants = none ∧
      (Value.sequence (.ofList ((sortByWire (Context.start .empty).element Prod.fst
        [(word 1, .ofByte 8), (word 256, .ofByte 7)]).map fun e => Value.pair e.1 e.2)) :
          Value (.vector (.tuple [.u16, .u8]))).wire (.start .empty) = .ok [2, 0, 0, 0, 0, 1, 7, 1, 0, 8] ∧
      Ty.decode (.set (.asWritten .hash) .u16) (.start .empty) [2, 0, 0, 0, 0, 1, 1, 0, 9] =
        .ok (.set (.ofList [word 256, word 1]), [9]) := by
  obtain ⟨hset, hmap⟩ := Context.sortedSequence (.start .empty) rfl
  have hwire : (Value.map (.ofList [(word 1, .ofByte 8), (word 256, .ofByte 7)]) :
      Value (.map (.asWritten .hash) .u16 .u8)).wire (.start .empty) = .ok [2, 0, 0, 0, 0, 1, 7, 1, 0, 8] := by cbv
  have hcount : Decode.CountFits (.start .empty) [2, 0, 0, 0, 0, 1, 1, 0, 9] := by
    rintro n rest ⟨⟩
    decide
  have hread : Ty.decode (.vector .u16) (.start .empty) [2, 0, 0, 0, 0, 1, 1, 0, 9] =
      .ok (.sequence (.ofList [word 256, word 1]), [9]) := by cbv
  have hbytes : Wires (Context.start .empty).element [word 256, word 1] [[0, 1], [1, 0]] :=
    .cons rfl (.cons rfl .nil)
  exact ⟨rfl, rfl, (hmap rfl _ _).written (.asWritten .hash) .vector _ _ (fun hpair => by cases hpair) hwire,
    ((hset .u16).read .hash .vector _ _ _ hcount).mpr ⟨hread, _, hbytes, by decide⟩⟩

end Words

end CanonicalWire
