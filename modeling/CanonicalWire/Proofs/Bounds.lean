import CanonicalWire.Proofs.RoundTrip

/-!
How large decoded values are. Counts come from the input, and three mechanisms hold them down: the ceiling on
byte strings, the same ceiling on the number of items that take no bytes, and the ascending order of keys,
of which only the first can be empty.
-/

namespace CanonicalWire

/-- How many items a run may have: items of type `u8` are a byte string, other items may take no bytes. -/
def Ty.RunWithin (ceiling size : Nat) (t : Ty) (len : Nat) : Prop :=
  if t = .byte then len ≤ ceiling ∧ len ≤ size else len ≤ max ceiling size

/-- Texts, byte strings and identifiers keep within the ceiling and within the bytes read. -/
def Scalar.Within (ceiling size : Nat) : (s : Scalar) → s.Carrier → Prop
  | .text _, s => (Utf8.encode s).length ≤ ceiling ∧ (Utf8.encode s).length ≤ size
  | .bytes, bs => List.length (α := UInt8) bs ≤ ceiling ∧ List.length (α := UInt8) bs ≤ size
  | .uuid, x => (Block.bytes x).length ≤ ceiling ∧ (Block.bytes x).length ≤ size
  | _, _ => True

theorem Ty.RunWithin.mono {ceiling m n : Nat} (hle : m ≤ n) {t : Ty} {len : Nat} (h : t.RunWithin ceiling m len) :
    t.RunWithin ceiling n len := by
  rw [Ty.RunWithin] at h ⊢
  split
  · next ht =>
      rw [if_pos ht] at h
      exact ⟨h.1, h.2.trans hle⟩
  · next ht =>
      rw [if_neg ht] at h
      omega

theorem Scalar.Within.mono {ceiling m n : Nat} (hle : m ≤ n) {s : Scalar} {x : s.Carrier} (h : s.Within ceiling m x) :
    s.Within ceiling n x := by
  cases s with
  | text | bytes | uuid => exact ⟨h.1, h.2.trans hle⟩
  | _ => trivial

/-! ### Pieces of an input -/

theorem length_le_flatMap {α : Type} {f : α → Bytes} {as : List α} (h : ∀ a ∈ as, f a ≠ []) :
    as.length ≤ (as.flatMap f).length := by
  induction as with
  | nil => exact Nat.zero_le _
  | cons a as ih =>
      obtain ⟨ha, has⟩ := List.forall_mem_cons.mp h
      have hpos := List.length_pos_iff.mpr ha
      have hrest := ih has
      rw [List.flatMap_cons, List.length_append, List.length_cons]
      omega

/-- Keys in ascending order are not empty but for the first, so pieces that hold them are not more than their
bytes and one. -/
theorem length_le_of_ascending {α : Type} (key f : α → Bytes) (hkey : ∀ a, f a = [] → key a = []) {as : List α}
    (h : Ascending (as.map key)) : as.length ≤ (as.flatMap f).length + 1 := by
  cases as with
  | nil => exact Nat.zero_le _
  | cons a as =>
      have hfirst := (List.pairwise_cons.mp h).1
      have hrest : as.length ≤ (as.flatMap f).length := by
        refine length_le_flatMap fun b hb hnil => ?_
        have hlt := hfirst (key b) (List.mem_map_of_mem hb)
        rw [hkey b hnil] at hlt
        exact List.not_lt_nil _ hlt
      rw [List.flatMap_cons, List.length_append, List.length_cons]
      omega

theorem length_le_flatMap_of_mem {α : Type} {f : α → Bytes} {as : List α} {a : α} (h : a ∈ as) :
    (f a).length ≤ (as.flatMap f).length :=
  (List.sublist_flatten_of_mem (List.mem_map_of_mem h)).length_le

/-! ### Values -/

theorem Declaration.limits_enter {declared : Declaration} {container : Option String} {ctx fieldCtx : Context}
    (h : declared.enter container ctx = .ok fieldCtx) : fieldCtx.limits = ctx.limits := by
  obtain ⟨d, variants, -, rfl⟩ := Declaration.enter_eq h
  rfl

theorem Encode.length_le_of_writeByteRun {bs b : Bytes} {ctx : Context} (h : (writeByteRun bs ctx).bytes = .ok b) :
    bs.length ≤ ctx.limits.maxBytesLen ∧ bs.length ≤ b.length := by
  obtain ⟨hle, u, -, rfl⟩ := bytes_writeByteRun_eq_ok.mp h
  rw [List.length_append]
  exact ⟨hle, Nat.le_add_left _ _⟩

theorem Scalar.bounded_decode (s : Scalar) (ctx : Context) :
    (s.decode ctx).Accepts fun x taken => s.Within ctx.limits.maxBytesLen taken.length x := by
  refine (s.accepts_decode ctx).mono fun x taken h => ?_
  cases s with
  | text | bytes => exact Encode.length_le_of_writeByteRun h
  | uuid =>
      obtain ⟨hle, rfl⟩ := Encode.bytes_writeUuid_eq_ok.mp h
      exact ⟨x.length_eq.symm ▸ hle, Nat.le_refl _⟩
  | _ => trivial

section Values

variable [Declarations]

mutual
/-- Every text, byte string, run, map and set in the value, at any depth, is within the bounds: the ceiling on
lengths, and the size of what the value was read from. The fields that `exempt` picks are not looked into; they
hold the default that they come back with, or nothing if there is none. -/
def Value.Within (exempt : Declaration → Bool) (ceiling size : Nat) : {t : Ty} → Value t → Prop
  | .scalar s, .scalar x => s.Within ceiling size x
  | .option _, .absent => True
  | .option _, .present x => x.Within exempt ceiling size
  | .pointer _ _, .pointer x => x.Within exempt ceiling size
  | .sequence _ t, .sequence (n := n) xs => t.RunWithin ceiling size n ∧ xs.Within exempt ceiling size
  | .deque t, .deque (m := m) (n := n) front back => t.RunWithin ceiling size (m + n) ∧
      front.Within exempt ceiling size ∧ back.Within exempt ceiling size
  | .array t n, .array xs => t.RunWithin ceiling size n ∧ xs.Within exempt ceiling size
  | .map _ _ _, .map es => es.toList.length ≤ size ∧ es.Within exempt ceiling size
  | .set _ _, .set (n := n) xs => n ≤ size ∧ xs.Within exempt ceiling size
  | .record k _, .record xs => xs.Within exempt ceiling size k
  | .union _ _, .union c => c.Within exempt ceiling size
  | .recursive _, .recursive x => x.Within exempt ceiling size
def Items.Within (exempt : Declaration → Bool) (ceiling size : Nat) : {t : Ty} → {n : Nat} → Items t n → Prop
  | _, _, .nil => True
  | _, _, .cons x xs => x.Within exempt ceiling size ∧ xs.Within exempt ceiling size
def Entries.Within (exempt : Declaration → Bool) (ceiling size : Nat) : {k v : Ty} → Entries k v → Prop
  | _, _, .nil => True
  | _, _, .cons key value rest =>
      (key.Within exempt ceiling size ∧ value.Within exempt ceiling size) ∧ rest.Within exempt ceiling size
def Record.Within (exempt : Declaration → Bool) (ceiling size : Nat) : {fs : Fields} → Record fs → RecordKind → Prop
  | .nil, .nil, _ => True
  | .cons _ declared t _, .cons x xs, k =>
      (if exempt declared then k.default? t = some x else x.Within exempt ceiling size) ∧
        xs.Within exempt ceiling size k
  | .cons _ declared t _, .omitted _ xs, k =>
      (exempt declared = true → k.default? t = none) ∧ xs.Within exempt ceiling size k
def Choice.Within (exempt : Declaration → Bool) (ceiling size : Nat) : {cs : Cases} → Choice cs → Prop
  | .cons _ _ _, .here x => x.Within exempt ceiling size
  | .cons _ _ _, .there c => c.Within exempt ceiling size
end

variable {exempt : Declaration → Bool} {ceiling : Nat}

theorem Items.within_iff {size : Nat} : {t : Ty} → {n : Nat} → (xs : Items t n) →
    (xs.Within exempt ceiling size ↔ ∀ x ∈ xs.toList, x.Within exempt ceiling size)
  | _, _, .nil => by simp [Items.Within, Items.toList]
  | _, _, .cons x xs => by rw [Items.Within, Items.toList, List.forall_mem_cons, xs.within_iff]

theorem Entries.within_iff {size : Nat} : {k v : Ty} → (es : Entries k v) →
    (es.Within exempt ceiling size ↔
      ∀ e ∈ es.toList, e.1.Within exempt ceiling size ∧ e.2.Within exempt ceiling size)
  | _, _, .nil => by simp [Entries.Within, Entries.toList]
  | _, _, .cons key value rest => by
      rw [Entries.Within, Entries.toList, List.forall_mem_cons, rest.within_iff]

theorem Choice.within_iff {size : Nat} : {cs : Cases} → (c : Choice cs) →
    (c.Within exempt ceiling size ↔ c.value.Within exempt ceiling size)
  | .cons .., .here _ => Iff.rfl
  | .cons .., .there c => c.within_iff

theorem Record.within_mono_of_all {m n : Nat} {k : RecordKind} : {fs : Fields} → (xs : Record fs) →
    xs.All (fun _ x => x.Within exempt ceiling m → x.Within exempt ceiling n) →
      xs.Within exempt ceiling m k → xs.Within exempt ceiling n k
  | .nil, .nil, _, _ => trivial
  | .cons _ declared _ _, .cons x xs, ih, h => by
      refine ⟨?_, xs.within_mono_of_all ih.2 h.2⟩
      have hx := h.1
      split
      · next hskip => rwa [if_pos hskip] at hx
      · next hskip =>
          rw [if_neg hskip] at hx
          exact ih.1 hx
  | .cons .., .omitted _ xs, ih, h => ⟨h.1, xs.within_mono_of_all ih h.2⟩

section Mono

variable {m n : Nat} (hle : m ≤ n)
include hle

/-- What is within the bounds stays within them if more is read. -/
theorem Value.Within.mono {t : Ty} {x : Value t} (h : x.Within exempt ceiling m) : x.Within exempt ceiling n := by
  induction x with
  | scalar x => exact Scalar.Within.mono hle h
  | absent => trivial
  | present x ih | pointer x ih | recursive x ih => exact ih h
  | sequence xs ih | array xs ih =>
      exact ⟨h.1.mono hle, xs.within_iff.mpr fun x hx => ih x hx (xs.within_iff.mp h.2 x hx)⟩
  | deque front back ihfront ihback =>
      exact ⟨h.1.mono hle, front.within_iff.mpr fun x hx => ihfront x hx (front.within_iff.mp h.2.1 x hx),
        back.within_iff.mpr fun x hx => ihback x hx (back.within_iff.mp h.2.2 x hx)⟩
  | map es ih =>
      refine ⟨h.1.trans hle, es.within_iff.mpr fun e he => ?_⟩
      obtain ⟨hkey, hvalue⟩ := es.within_iff.mp h.2 e he
      exact ⟨(ih e he).1 hkey, (ih e he).2 hvalue⟩
  | set xs ih => exact ⟨h.1.trans hle, xs.within_iff.mpr fun x hx => ih x hx (xs.within_iff.mp h.2 x hx)⟩
  | record xs ih => exact xs.within_mono_of_all ih h
  | union c ih => exact c.within_iff.mpr (ih (c.within_iff.mp h))

theorem Record.Within.mono {k : RecordKind} {fs : Fields} {xs : Record fs} (h : xs.Within exempt ceiling m k) :
    xs.Within exempt ceiling n k :=
  xs.within_mono_of_all (xs.all_of_forall fun _ _ hx => hx.mono hle) h

end Mono

namespace Decode

/-- What is read is within the bounds that the bytes taken for it give. -/
def Bounded {t : Ty} (d : Decode (Value t)) (ceiling : Nat) : Prop :=
  d.Accepts fun x taken => x.Within Declaration.skips ceiling taken.length

variable {t : Ty} {item : Decode (Value t)} {ctx : Context}

theorem Bounded.after {α : Type} {d : Decode α} {f : α → Decode (Value t)} {P : α → Bytes → Prop} {ceiling : Nat}
    (hd : d.Accepts P) (hf : ∀ a, (f a).Bounded ceiling) : Bounded (d >>= f) ceiling :=
  hd.bind fun a u _ => (hf a).mono fun x taken hx => by
    rw [List.length_append]
    exact hx.mono (Nat.le_add_left _ _)

theorem bounded_readBlock (len : Nat) (ctx : Context) :
    (readBlock len ctx).Accepts fun xs taken =>
      Ty.byte.RunWithin ctx.limits.maxBytesLen taken.length len ∧
        xs.Within Declaration.skips ctx.limits.maxBytesLen taken.length := by
  refine .lift_bind fun _ hcheck => .map ((accepts_take len).mono ?_)
  rintro block _ rfl
  constructor
  · rw [Ty.RunWithin, if_pos rfl, block.length_eq]
    exact ⟨checkLength_eq_ok.mp hcheck, Nat.le_refl len⟩
  · refine (Items.within_iff _).mpr ?_
    rintro ⟨x⟩ -
    trivial

theorem bounded_readRun (hitem : item.Bounded ctx.limits.maxBytesLen) (len : Nat) :
    (readRun t item len ctx).Accepts fun xs taken =>
      t.RunWithin ctx.limits.maxBytesLen taken.length len ∧
        xs.Within Declaration.skips ctx.limits.maxBytesLen taken.length := by
  by_cases ht : t = .byte
  · subst ht
    exact bounded_readBlock len ctx
  · rw [readRun_of_ne ht]
    refine (accepts_readEach hitem len ctx len).mono ?_
    rintro xs _ ⟨bs, hbs, hcount, rfl⟩
    constructor
    · rw [Ty.RunWithin, if_neg ht]
      by_cases hnil : [] ∈ bs
      · exact le_max_of_le_left (hcount hnil)
      · refine le_max_of_le_right ?_
        calc len = bs.length := xs.length_toList.symm.trans hbs.length_eq
          _ ≤ (bs.flatMap id).length := length_le_flatMap fun b hb (hb' : b = []) => hnil (hb' ▸ hb)
          _ = bs.flatten.length := by rw [List.flatMap_id]
    · refine xs.within_iff.mpr fun x hx => ?_
      obtain ⟨b, hb, hwithin⟩ := forall₂_exists_of_mem hbs hx
      exact hwithin.mono (List.sublist_flatten_of_mem hb).length_le

end Decode

/-- Listing the entries of a map anew keeps them within the bounds. -/
theorem Entries.within_list {size : Nat} {k v : Ty} {es : Entries k v} (l : Listing)
    (hlength : es.toList.length ≤ size) (h : es.Within exempt ceiling size) :
    (Value.map (es.list l) : Value (.map l k v)).Within exempt ceiling size := by
  obtain ⟨hle, hall⟩ := Entries.covered_list (es.within_iff.mp h) l
  exact ⟨hle.trans hlength, (es.list l).within_iff.mpr hall⟩

theorem Value.within_setOf {size : Nat} {t : Ty} {xs : List (Value t)} (l : Listing) (hlength : xs.length ≤ size)
    (h : ∀ x ∈ xs, x.Within exempt ceiling size) : (setOf xs l).Within exempt ceiling size := by
  obtain ⟨hle, hall⟩ := Items.covered_list h l
  refine ⟨hle.trans hlength, (Items.within_iff _).mpr ?_⟩
  rwa [Items.toList_ofList]

namespace Decode

variable {t : Ty} {item : Decode (Value t)}

/-- The byte that an empty first key lacks is made up for by the count before the entries. -/
theorem bounded_readEntries {v : Ty} {value : Decode (Value v)} (hitem : item.Bounded ceiling)
    (hvalue : value.Bounded ceiling) (len : Nat) (l : Listing) :
    (readEntries item value len 0 none).Accepts fun es taken => ∀ size, taken.length < size →
      (Value.map (es.list l) : Value (.map l t v)).Within Declaration.skips ceiling size := by
  refine (accepts_readEntries hitem hvalue len 0 none).mono ?_
  rintro es _ ⟨ps, hps, hascending, -, rfl⟩ size hsize
  have hcount := length_le_of_ascending (·.1) (fun p : Bytes × Bytes => p.1 ++ p.2)
    (fun p hp => (List.append_eq_nil_iff.mp hp).1) (ascendingFrom_none.mp hascending)
  refine Entries.within_list l ?_ (es.within_iff.mpr fun e he => ?_)
  · rw [hps.length_eq]
    omega
  · obtain ⟨p, hp, hkey, hval⟩ := forall₂_exists_of_mem hps he
    have hle := length_le_flatMap_of_mem (f := fun p : Bytes × Bytes => p.1 ++ p.2) hp
    rw [List.length_append] at hle
    exact ⟨hkey.mono (by omega), hval.mono (by omega)⟩

theorem bounded_readSet (hitem : item.Bounded ceiling) (len : Nat) (l : Listing) :
    (readSet item len 0 none).Accepts fun xs taken => ∀ size, taken.length < size →
      (Value.setOf xs.toList l).Within Declaration.skips ceiling size := by
  refine (accepts_readSet hitem len 0 none).mono ?_
  rintro xs _ ⟨bs, hbs, hascending, rfl⟩ size hsize
  have hcount := length_le_of_ascending id id (fun _ h => h) (List.map_id bs ▸ ascendingFrom_none.mp hascending)
  rw [List.flatMap_id] at hcount
  have hlength := hbs.length_eq
  refine Value.within_setOf l (by omega) fun x hx => ?_
  obtain ⟨b, hb, hwithin⟩ := forall₂_exists_of_mem hbs hx
  have hle := (List.sublist_flatten_of_mem hb).length_le
  exact hwithin.mono (by omega)

end Decode

theorem RecordKind.within_restore {size : Nat} {k : RecordKind} {name : String} {declared : Declaration} {t : Ty}
    {fs : Fields} (skipped : declared.skips = true) {xs : Record fs}
    (h : xs.Within Declaration.skips ceiling size k) :
    (k.restore skipped xs : Record (.cons name declared t fs)).Within Declaration.skips ceiling size k := by
  rw [k.restore_eq skipped]
  split
  · next x hdefault => exact ⟨by rwa [if_pos skipped], h⟩
  · next hdefault => exact ⟨fun _ => hdefault, h⟩

section Types

variable {self : DecodeRecursive}

theorem Fields.bounded_decodeWith (k : RecordKind) : (fs : Fields) → (ctx : Context) →
    (∀ t ∈ fs.types, ∀ ctx, (t.decodeWith self ctx).Bounded ctx.limits.maxBytesLen) →
      (fs.decodeWith self k ctx).Accepts fun xs taken =>
        xs.Within Declaration.skips ctx.limits.maxBytesLen taken.length k
  | .nil, _, _ => .pure trivial
  | .cons _ declared t rest, ctx, h => by
      obtain ⟨ht, hrest⟩ := List.forall_mem_cons.mp h
      have hxs := rest.bounded_decodeWith k ctx hrest
      rw [Fields.decodeWith]
      split
      · next skipped => exact .map (hxs.mono fun xs taken hxs => RecordKind.within_restore skipped hxs)
      · next hskip =>
          refine .lift_bind fun fieldCtx henter => (ht fieldCtx).bind fun x b hx => .map (hxs.mono ?_)
          intro xs more hxs
          rw [Declaration.limits_enter henter] at hx
          rw [List.length_append]
          refine ⟨?_, hxs.mono (Nat.le_add_left _ _)⟩
          rw [if_neg hskip]
          exact hx.mono (Nat.le_add_right _ _)

theorem Cases.bounded_decodeWith (union : String) (payload : Ty) : (cs : Cases) → (ctx : Context) →
    (∀ t ∈ cs.types, ∀ ctx, (t.decodeWith self ctx).Bounded ctx.limits.maxBytesLen) →
      (cs.decodeWith self union payload ctx).Accepts fun c taken =>
        c.Within Declaration.skips ctx.limits.maxBytesLen taken.length
  | .nil, _, _ => .throw _
  | .cons _ t rest, ctx, h => by
      obtain ⟨ht, hrest⟩ := List.forall_mem_cons.mp h
      rw [Cases.decodeWith]
      split
      · exact .map (ht ctx)
      · exact .map (rest.bounded_decodeWith union payload ctx hrest)

theorem Ty.bounded_decodeWith (hself : ∀ r ctx, (self r ctx).Bounded ctx.limits.maxBytesLen) (t : Ty)
    (ctx : Context) : (t.decodeWith self ctx).Bounded ctx.limits.maxBytesLen := by
  induction t generalizing ctx with
  | scalar s => exact .map (s.bounded_decode ctx)
  | option t ih =>
      rw [Ty.decodeWith]
      split
      · refine .after Decode.accepts_readBool fun b => ?_
        split
        · exact .map (ih ctx.present)
        · exact .pure trivial
      · exact .map (ih ctx)
  | pointer p t ih => exact .map (ih ctx)
  | sequence k t ih =>
      exact .after (Decode.accepts_readCount ctx) fun len => .map (Decode.bounded_readRun (ih ctx.element) len)
  | deque t ih =>
      refine .after (Decode.accepts_readCount ctx) fun len => .map ?_
      exact (Decode.bounded_readRun (ih ctx.element) len).mono fun xs taken h => ⟨h.1, h.2, trivial⟩
  | array t n ih => exact .map (Decode.bounded_readRun (ih ctx.element) n)
  | map l k v ihk ihv =>
      refine .map (Decode.length_readLen.bind fun len u hu => ?_)
      refine (Decode.bounded_readEntries (ihk ctx.element) (ihv ctx.element) len l).mono fun es taken h => h _ ?_
      rw [List.length_append]
      omega
  | set l t ih =>
      refine .map (Decode.length_readLen.bind fun len u hu => .map ?_)
      refine (Decode.bounded_readSet (ih ctx.element) len l).mono fun xs taken h => h _ ?_
      rw [List.length_append]
      omega
  | record k fs ih => exact .map (fs.bounded_decodeWith k ctx ih)
  | union name cs ih =>
      exact .after (Decode.accepts_readVariant name ctx) fun variant =>
        .map (cs.bounded_decodeWith name variant.payload ctx.bare ih)
  | recursive r => exact .map (hself r ctx)

theorem decodeNested_bounded : (n : Nat) → (r : Recursive) → (ctx : Context) →
    (decodeNested n r ctx).Bounded ctx.limits.maxBytesLen
  | 0, _, _ => .throw _
  | n + 1, r, ctx => r.body.bounded_decodeWith (decodeNested_bounded n) ctx

end Types

theorem Ty.bounded_decode (t : Ty) (ctx : Context) : (t.decode ctx).Bounded ctx.limits.maxBytesLen :=
  accepts_decode_of_nested fun n => t.bounded_decodeWith (decodeNested_bounded n) ctx

/-- However an input is made, what is decoded from it is within the bounds that the ceiling and the size of the
input give, but for skipped fields: nothing is read for these, and they hold the default of their type. -/
theorem Ty.decode_within {t : Ty} {ctx : Context} {input rest : Bytes} {x : Value t}
    (h : t.decode ctx input = .ok (x, rest)) :
    x.Within Declaration.skips ctx.limits.maxBytesLen input.length := by
  obtain ⟨taken, rfl, hx⟩ := t.bounded_decode ctx input x rest h
  rw [List.length_append]
  exact hx.mono (Nat.le_add_right _ _)

end Values

section Marks

/-- One name with three units. -/
def marks : Value (.map .byKey .string (.vector .unit)) :=
  .map (.cons (.scalar (s := .text .owned) "hi") (units 3) .nil)

theorem Ty.decode_within_marks :
    Ty.decode _ threeBytes [1, 0, 0, 0, 2, 0, 0, 0, 104, 105, 3, 0, 0, 0] = .ok (marks, []) ∧
      marks.Within Declaration.skips 3 14 := by
  have h : Ty.decode _ threeBytes [1, 0, 0, 0, 2, 0, 0, 0, 104, 105, 3, 0, 0, 0] = .ok (marks, []) := by cbv
  exact ⟨h, decode_within h⟩

end Marks

section Keyed

/-- A record that keeps four bytes out of its written form. -/
def keyed : Ty := .record (.declared "Keyed" .named) (.cons "cache" (.valid { skip := true }) (.array .u8 4) .nil)

def blankKey : Value keyed := .record (.cons (.array (.replicate (.ofByte 0) 4)) .nil)

/-- With skipped fields looked into, the bounds do not hold: four bytes come from no input, under a ceiling of
three. -/
theorem Ty.decode_exceeds_keyed :
    Ty.decode keyed threeBytes [] = .ok (blankKey, []) ∧ ¬blankKey.Within (fun _ => false) 3 0 := by
  refine ⟨by cbv, fun h => ?_⟩
  have hrun : Ty.RunWithin 3 0 .u8 4 := h.1.1
  exact absurd hrun.1 (by decide)

end Keyed

end CanonicalWire
