import CanonicalWire.Proofs.Induction
import CanonicalWire.Proofs.Outcomes
import Mathlib

/-!
What encoding writes. No encoder looks at the bytes already written, so an encoder is determined by the
bytes it appends to an empty writer. For values these are their wire form, which is computed here from
the wire forms of their parts.
-/

namespace CanonicalWire

namespace Encode

/-- On every writer the action fails alike or appends the same bytes. -/
def Appends (a : Encode) : Prop := ∀ written, a written = a.bytes.map fun bs => ((), written ++ bs)

@[simp] theorem bytes_pure : bytes (pure ()) = .ok [] := rfl

@[simp] theorem bytes_put (bs : Bytes) : (put bs).bytes = .ok bs := rfl

@[simp] theorem bytes_throw (e : CodecError) : bytes (throw e) = .error e := rfl

@[simp] theorem bytes_lift_bind {α : Type} (e : Except CodecError α) (f : α → Encode) :
    bytes ((liftM e : StateT Bytes (Except CodecError) α) >>= f) = e >>= fun x => (f x).bytes := by
  cases e <;> rfl

theorem appends_pure : Appends (pure ()) := fun written => by
  show Except.ok ((), written) = Except.ok ((), written ++ [])
  rw [List.append_nil]

theorem appends_put (bs : Bytes) : (put bs).Appends := fun _ => rfl

theorem appends_throw (e : CodecError) : Appends (throw e) := fun _ => rfl

theorem appends_lift_bind {α : Type} (e : Except CodecError α) {f : α → Encode} (hf : ∀ x, (f x).Appends) :
    Appends ((liftM e : StateT Bytes (Except CodecError) α) >>= f) := fun written => by
  cases e with
  | error e => rfl
  | ok x => exact hf x written

/-- What an action appends to an empty writer says when and with what it succeeds on any writer. -/
theorem Appends.apply_eq_ok {a : Encode} (ha : a.Appends) {written r : Bytes} :
    a written = .ok ((), r) ↔ ∃ b, a.bytes = .ok b ∧ written ++ b = r := by
  rw [ha, map_eq_ok]
  simp only [Prod.mk.injEq, true_and]

theorem bytes_bind {a b : Encode} (hb : b.Appends) :
    bytes (a >>= fun _ => b) = do
      let u ← a.bytes
      let v ← b.bytes
      return u ++ v := by
  show Except.map _ (a [] >>= fun p => b p.2) = (a []).map (·.2) >>= _
  cases ha : a [] with
  | error e => rfl
  | ok p =>
      show Except.map _ (b p.2) = _
      rw [hb]
      cases hbytes : b.bytes <;> rfl

theorem Appends.bind {a b : Encode} (ha : a.Appends) (hb : b.Appends) : Appends (a >>= fun _ => b) := by
  intro written
  rw [bytes_bind hb]
  show (a written >>= fun p => b p.2) = _
  rw [ha written]
  cases a.bytes with
  | error e => rfl
  | ok u =>
      show b (written ++ u) = _
      rw [hb]
      cases b.bytes with
      | error e => rfl
      | ok v =>
          show Except.ok ((), written ++ u ++ v) = Except.ok ((), written ++ (u ++ v))
          rw [List.append_assoc]

theorem bytes_bind_eq_ok {a b : Encode} (hb : b.Appends) {w : Bytes} :
    bytes (a >>= fun _ => b) = .ok w ↔ ∃ u v, a.bytes = .ok u ∧ b.bytes = .ok v ∧ w = u ++ v := by
  rw [bytes_bind hb]
  simp only [bind_eq_ok, pure, Except.pure, Except.ok.injEq]
  constructor
  · intro h
    obtain ⟨u, hu, v, hv, rfl⟩ := h
    exact ⟨u, v, hu, hv, rfl⟩
  · intro h
    obtain ⟨u, v, hu, hv, rfl⟩ := h
    exact ⟨u, hu, v, hv, rfl⟩

theorem appends_writeLen (len : Nat) : (writeLen len).Appends := by
  rw [writeLen]
  split
  · exact appends_throw _
  · exact appends_put _

theorem appends_writeCount (len : Nat) (ctx : Context) : (writeCount len ctx).Appends := by
  rw [writeCount]
  split
  · split
    · exact appends_pure
    · exact appends_throw _
  · exact appends_writeLen len

theorem appends_writeByteRun (bs : Bytes) (ctx : Context) : (writeByteRun bs ctx).Appends :=
  appends_lift_bind _ fun _ => (appends_writeCount _ _).bind (appends_put _)

theorem appends_writeBigUint (magnitude : Bytes) (width : Nat) : (writeBigUint magnitude width).Appends :=
  appends_lift_bind _ fun _ => appends_put _

theorem appends_writeRun [Definitions] {t : Ty} {n : Nat} (xs : Items t n) {oneByOne : Encode} (ctx : Context)
    (h : oneByOne.Appends) : (writeRun xs oneByOne ctx).Appends := by
  rw [writeRun]
  split
  · exact appends_lift_bind _ fun _ => appends_put _
  · exact h

end Encode

theorem Scalar.appends_encode (s : Scalar) (x : s.Carrier) (ctx : Context) : (s.encode x ctx).Appends := by
  cases s with
  | bool | int | uint => exact Encode.appends_put _
  | u128 | natural => exact Encode.appends_writeBigUint _ _
  | i128 | integer =>
      simp only [Scalar.encode, Encode.writeI128, Encode.writeInteger]
      split
      · exact Encode.appends_throw _
      · exact Encode.appends_writeBigUint _ _
  | decimal =>
      simp only [Scalar.encode, Encode.writeDecimal, Encode.writeInteger]
      split
      · split
        · exact Encode.appends_throw _
        · exact Encode.appends_writeBigUint _ _
      · exact Encode.appends_throw _
  | text | bytes => exact Encode.appends_writeByteRun _ _
  | uuid => exact Encode.appends_lift_bind _ fun _ => Encode.appends_put _

theorem checkLength_of_le {len : Nat} {ctx : Context} (h : len ≤ ctx.limits.maxBytesLen) :
    checkLength len ctx = .ok () := if_neg (Nat.not_lt.mpr h)

theorem checkLength_of_lt {len : Nat} {ctx : Context} (h : ctx.limits.maxBytesLen < len) :
    checkLength len ctx = .error (.oversizedLength len ctx.limits.maxBytesLen) := if_pos h

theorem checkLength_eq_ok {len : Nat} {ctx : Context} {u : PUnit} :
    checkLength len ctx = .ok u ↔ len ≤ ctx.limits.maxBytesLen := by
  rw [checkLength]
  split
  · next h => simp [Nat.not_le.mpr h]
  · next h => simp [Nat.not_lt.mp h]

namespace Encode

theorem bytes_writeLen_eq_ok {len : Nat} {u : Bytes} :
    (writeLen len).bytes = .ok u ↔ len ≤ maxPrefix ∧ u = digitsLE prefixWidth len := by
  rw [writeLen]
  split
  · next h => simp [Nat.not_le.mpr h]
  · next h => simp [Nat.not_lt.mp h, eq_comm]

theorem bytes_writeByteRun_eq_ok {bs b : Bytes} {ctx : Context} :
    (writeByteRun bs ctx).bytes = .ok b ↔
      bs.length ≤ ctx.limits.maxBytesLen ∧ ∃ u, (writeCount bs.length ctx).bytes = .ok u ∧ b = u ++ bs := by
  simp [writeByteRun, bind_eq_ok, bytes_bind_eq_ok (appends_put bs), checkLength_eq_ok]

end Encode

theorem forall₂_imp_of_mem {α β : Type} {r s : α → β → Prop} {xs : List α} {ys : List β} (h : List.Forall₂ r xs ys)
    (himp : ∀ x ∈ xs, ∀ y, r x y → s x y) : List.Forall₂ s xs ys :=
  ((List.forall₂_and_left _ _).mpr ⟨himp, h⟩).imp fun _ y hxy => hxy.1 y hxy.2

theorem forall₂_exists_of_mem {α β : Type} {r : α → β → Prop} {xs : List α} {ys : List β}
    (h : List.Forall₂ r xs ys) {x : α} (hx : x ∈ xs) : ∃ y ∈ ys, r x y := by
  induction h with
  | nil => cases hx
  | @cons _ y _ _ hy _ ih =>
      rcases List.mem_cons.mp hx with rfl | hx
      · exact ⟨y, List.mem_cons_self .., hy⟩
      · obtain ⟨z, hz, hxz⟩ := ih hx
        exact ⟨z, List.mem_cons_of_mem _ hz, hxz⟩

variable [Definitions]

theorem Items.appends_encodeEach : {t : Ty} → {n : Nat} → (xs : Items t n) → (ctx : Context) →
    (∀ x ∈ xs.toList, (x.encode ctx).Appends) → (xs.encodeEach ctx).Appends
  | _, _, .nil, _, _ => Encode.appends_pure
  | _, _, .cons x xs, ctx, h => by
      obtain ⟨hx, hxs⟩ := List.forall_mem_cons.mp h
      exact hx.bind (xs.appends_encodeEach ctx hxs)

theorem Record.appends_encode : {fs : Fields} → (xs : Record fs) → (container : Option String) →
    (ctx : Context) → xs.All (fun _ x => ∀ ctx, (x.encode ctx).Appends) → (xs.encode container ctx).Appends
  | .nil, .nil, _, _, _ => Encode.appends_pure
  | .cons .., .cons x xs, container, ctx, h => by
      obtain ⟨hx, hxs⟩ := h
      have hrest := xs.appends_encode container ctx hxs
      simp only [Record.encode]
      split
      · exact hrest
      · exact Encode.appends_lift_bind _ fun fieldCtx => (hx fieldCtx).bind hrest
  | .cons .., .omitted _ xs, container, ctx, hxs =>
      Encode.appends_lift_bind _ fun _ => xs.appends_encode container ctx hxs

theorem Choice.encodePayload_eq : {cs : Cases} → (c : Choice cs) → (ctx : Context) →
    c.encodePayload ctx = c.value.encode ctx
  | .cons .., .here _, _ => rfl
  | .cons .., .there c, ctx => c.encodePayload_eq ctx

theorem Value.appends_encode {t : Ty} (x : Value t) (ctx : Context) : (x.encode ctx).Appends := by
  induction x generalizing ctx with
  | scalar x => exact Scalar.appends_encode _ x ctx
  | absent =>
      rw [encode_absent]
      split
      · exact Encode.appends_put _
      · exact Encode.appends_throw _
  | present x ih =>
      rw [encode_present]
      split
      · exact (Encode.appends_put _).bind (ih _)
      · exact ih _
  | pointer x ih => exact ih ctx
  | sequence xs ih =>
      exact (Encode.appends_writeCount _ _).bind
        (Encode.appends_writeRun _ _ (xs.appends_encodeEach _ fun x hx => ih x hx _))
  | deque front back ihfront ihback =>
      refine (Encode.appends_writeCount _ _).bind (Encode.Appends.bind ?_ ?_)
      · exact Encode.appends_writeRun _ _ (front.appends_encodeEach _ fun x hx => ihfront x hx _)
      · exact Encode.appends_writeRun _ _ (back.appends_encodeEach _ fun x hx => ihback x hx _)
  | array xs ih => exact Encode.appends_writeRun _ _ (xs.appends_encodeEach _ fun x hx => ih x hx _)
  | map es => exact Encode.appends_lift_bind _ fun _ => (Encode.appends_writeLen _).bind (Encode.appends_put _)
  | set xs => exact Encode.appends_lift_bind _ fun _ => (Encode.appends_writeLen _).bind (Encode.appends_put _)
  | record xs ih => exact xs.appends_encode _ ctx ih
  | union c ih =>
      refine Encode.appends_lift_bind _ fun _ => (Encode.appends_put _).bind ?_
      rw [c.encodePayload_eq]
      exact ih _
  | recursive x ih => exact ih ctx

theorem Items.appends_run {t : Ty} {n : Nat} (xs : Items t n) (ctx : Context) :
    (Encode.writeRun xs (xs.encodeEach ctx) ctx).Appends :=
  Encode.appends_writeRun xs ctx (xs.appends_encodeEach ctx fun x _ => x.appends_encode ctx)

/-- The wire form of a value: the bytes that it is written as. -/
def Value.wire {t : Ty} (x : Value t) (ctx : Context) : Except CodecError Bytes := (x.encode ctx).bytes

/-- The bytes that items are written as, after their number. -/
def Items.wire {t : Ty} {n : Nat} (xs : Items t n) (ctx : Context) : Except CodecError Bytes :=
  (Encode.writeRun xs (xs.encodeEach ctx) ctx).bytes

/-- The bytes that the fields of a record are written as. -/
def Record.wire {fs : Fields} (xs : Record fs) (container : Option String) (ctx : Context) :
    Except CodecError Bytes := (xs.encode container ctx).bytes

theorem Items.length_toList : {t : Ty} → {n : Nat} → (xs : Items t n) → xs.toList.length = n
  | _, _, .nil => rfl
  | _, _, .cons _ xs => congrArg (· + 1) xs.length_toList

/-- The bytes written for a list of values, one by one. -/
def Wires {t : Ty} (ctx : Context) : List (Value t) → List Bytes → Prop :=
  List.Forall₂ fun x b => x.wire ctx = .ok b

/-- The bytes written for the keys and values of a list of entries. -/
def EntryWires {k v : Ty} (ctx : Context) : List (Value k × Value v) → List (Bytes × Bytes) → Prop :=
  List.Forall₂ fun e p => e.1.wire ctx = .ok p.1 ∧ e.2.wire ctx = .ok p.2

theorem Wires.exists_of_mem {t : Ty} {ctx : Context} {xs : List (Value t)} {bs : List Bytes}
    (h : Wires ctx xs bs) {x : Value t} (hx : x ∈ xs) : ∃ b ∈ bs, x.wire ctx = .ok b := forall₂_exists_of_mem h hx

theorem Wires.perm {t : Ty} {ctx : Context} {xs ys : List (Value t)} {bs : List Bytes} (h : Wires ctx xs bs)
    (hperm : ys.Perm xs) : ∃ cs, Wires ctx ys cs ∧ cs.Perm bs := List.perm_comp_forall₂ hperm h

theorem EntryWires.perm {k v : Ty} {ctx : Context} {es fs : List (Value k × Value v)} {ps : List (Bytes × Bytes)}
    (h : EntryWires ctx es ps) (hperm : fs.Perm es) : ∃ qs, EntryWires ctx fs qs ∧ qs.Perm ps :=
  List.perm_comp_forall₂ hperm h

theorem EntryWires.keys {k v : Ty} {ctx : Context} {es : List (Value k × Value v)} {ps : List (Bytes × Bytes)}
    (h : EntryWires ctx es ps) : Wires ctx (es.map (·.1)) (ps.map (·.1)) := by
  rw [Wires, List.forall₂_map_left_iff, List.forall₂_map_right_iff]
  exact h.imp fun _ _ hep => hep.1

theorem Items.encodeApart_eq_ok : {t : Ty} → {n : Nat} → (xs : Items t n) → (ctx : Context) →
    (bs : List Bytes) → (xs.encodeApart ctx = .ok bs ↔ Wires ctx xs.toList bs)
  | _, _, .nil, ctx, bs => by
      simp [encodeApart, Items.toList, Wires, eq_comm]
  | _, _, .cons x xs, ctx, bs => by
      simp only [encodeApart, bind_eq_ok, xs.encodeApart_eq_ok ctx, Items.toList, Wires,
        List.forall₂_cons_left_iff]
      constructor
      · intro h
        obtain ⟨b, hb, rest, hrest, hbs⟩ := h
        exact ⟨b, rest, hb, hrest, (Except.ok.inj hbs).symm⟩
      · intro h
        obtain ⟨b, rest, hb, hrest, rfl⟩ := h
        exact ⟨b, hb, rest, hrest, rfl⟩

theorem Entries.encodeApart_eq_ok : {k v : Ty} → (es : Entries k v) → (ctx : Context) →
    (ps : List (Bytes × Bytes)) → (es.encodeApart ctx = .ok ps ↔ EntryWires ctx es.toList ps)
  | _, _, .nil, ctx, ps => by
      simp [encodeApart, Entries.toList, EntryWires, eq_comm]
  | _, _, .cons key value rest, ctx, ps => by
      simp only [encodeApart, bind_eq_ok, rest.encodeApart_eq_ok ctx, Entries.toList, EntryWires,
        List.forall₂_cons_left_iff]
      constructor
      · intro h
        obtain ⟨b, hb, c, hc, qs, hqs, hps⟩ := h
        exact ⟨(b, c), qs, ⟨hb, hc⟩, hqs, (Except.ok.inj hps).symm⟩
      · intro h
        obtain ⟨⟨b, c⟩, qs, ⟨hb, hc⟩, hqs, rfl⟩ := h
        exact ⟨b, hb, c, hc, qs, hqs, rfl⟩

theorem Items.encodeEach_eq_ok : {t : Ty} → {n : Nat} → (xs : Items t n) → (ctx : Context) → (b : Bytes) →
    ((xs.encodeEach ctx).bytes = .ok b ↔ ∃ bs, Wires ctx xs.toList bs ∧ b = bs.flatten)
  | _, _, .nil, ctx, b => by
      simp [encodeEach, Items.toList, Wires, eq_comm]
  | _, _, .cons x xs, ctx, b => by
      have hxs := xs.appends_encodeEach ctx fun y _ => y.appends_encode ctx
      simp only [encodeEach, Encode.bytes_bind_eq_ok hxs, xs.encodeEach_eq_ok ctx, Items.toList, Wires,
        List.forall₂_cons_left_iff]
      constructor
      · intro h
        obtain ⟨u, v, hu, ⟨bs, hbs, rfl⟩, rfl⟩ := h
        exact ⟨u :: bs, ⟨u, bs, hu, hbs, rfl⟩, rfl⟩
      · intro h
        obtain ⟨_, ⟨u, bs, hu, hbs, rfl⟩, rfl⟩ := h
        exact ⟨u, bs.flatten, hu, ⟨bs, hbs, rfl⟩, rfl⟩

theorem Value.wire_byte (b : UInt8) (ctx : Context) : (Value.ofByte b).wire ctx = .ok [b] := by
  have hb : UInt8.ofNat b.toBitVec.toNat = b := UInt8.ofNat_toNat
  show Except.ok [UInt8.ofNat b.toBitVec.toNat] = _
  rw [hb]

theorem Value.eq_ofByte : (x : Value .byte) → ∃ b, x = .ofByte b ∧ x.byte?.toList = [b]
  | .scalar x => ⟨UInt8.ofBitVec x, rfl, rfl⟩

theorem Items.encodeEach_byte : {n : Nat} → (xs : Items .byte n) → (ctx : Context) →
    (xs.encodeEach ctx).bytes = .ok xs.bytes
  | _, .nil, _ => rfl
  | _, .cons x xs, ctx => by
      have hxs := xs.appends_encodeEach ctx fun y _ => y.appends_encode ctx
      obtain ⟨b, rfl, hbyte⟩ := x.eq_ofByte
      rw [encodeEach, Encode.bytes_bind_eq_ok hxs]
      exact ⟨[b], xs.bytes, Value.wire_byte b ctx, xs.encodeEach_byte ctx, by rw [Items.bytes, hbyte]⟩

/-- Writing a run of items of type `u8` at once differs from writing them one by one only in the ceiling. -/
theorem Items.wire_eq_ok {t : Ty} {n : Nat} {xs : Items t n} {ctx : Context} {b : Bytes} :
    xs.wire ctx = .ok b ↔
      (t = .byte → n ≤ ctx.limits.maxBytesLen) ∧ ∃ bs, Wires ctx xs.toList bs ∧ b = bs.flatten := by
  rw [← xs.encodeEach_eq_ok, Items.wire, Encode.writeRun]
  split
  · next h =>
      subst h
      simp [bind_eq_ok, checkLength_eq_ok, xs.encodeEach_byte]
  · next h => simp [h]

namespace Value

theorem wire_absent {t : Ty} {ctx : Context} {b : Bytes} :
    (absent : Value (.option t)).wire ctx = .ok b ↔ ctx.optional = true ∧ b = [0] := by
  rw [wire, encode_absent]
  split
  · next h => simp [h, Encode.writeBool, eq_comm]
  · next h => simp [h]

theorem wire_present {t : Ty} {x : Value t} {ctx : Context} {b : Bytes} :
    (present x).wire ctx = .ok b ↔
      if ctx.optional then ∃ c, x.wire ctx.present = .ok c ∧ b = 1 :: c else x.wire ctx = .ok b := by
  rw [wire, encode_present]
  split
  · rw [Encode.bytes_bind_eq_ok (x.appends_encode _)]
    constructor
    · intro h
      obtain ⟨_, c, ⟨⟩, hc, rfl⟩ := h
      exact ⟨c, hc, rfl⟩
    · intro h
      obtain ⟨c, hc, rfl⟩ := h
      exact ⟨[1], c, rfl, hc, rfl⟩
  · rfl

theorem wire_sequence {k : SequenceKind} {t : Ty} {n : Nat} {xs : Items t n} {ctx : Context} {b : Bytes} :
    (sequence xs : Value (.sequence k t)).wire ctx = .ok b ↔
      ∃ u v, (Encode.writeCount n ctx).bytes = .ok u ∧ xs.wire ctx.element = .ok v ∧ b = u ++ v :=
  Encode.bytes_bind_eq_ok (xs.appends_run ctx.element)

/-- Where a deque is cut does not show in its bytes. If its items are of type `u8`, each part is held to the
ceiling by itself. -/
theorem wire_deque {t : Ty} {m n : Nat} {front : Items t m} {back : Items t n} {ctx : Context} {b : Bytes} :
    (deque front back).wire ctx = .ok b ↔
      (t = .byte → m ≤ ctx.limits.maxBytesLen ∧ n ≤ ctx.limits.maxBytesLen) ∧
        ∃ u bs, (Encode.writeCount (m + n) ctx).bytes = .ok u ∧
          Wires ctx.element (front.toList ++ back.toList) bs ∧ b = u ++ bs.flatten := by
  have hfront := front.appends_run ctx.element
  have hback := back.appends_run ctx.element
  rw [wire, encode_deque, Encode.bytes_bind_eq_ok (hfront.bind hback)]
  simp only [Encode.bytes_bind_eq_ok hback]
  constructor
  · intro h
    obtain ⟨u, _, hu, ⟨v, w, hv, hw, rfl⟩, rfl⟩ := h
    obtain ⟨hm, bs, hbs, rfl⟩ := Items.wire_eq_ok.mp hv
    obtain ⟨hn, cs, hcs, rfl⟩ := Items.wire_eq_ok.mp hw
    exact ⟨fun ht => ⟨hm ht, hn ht⟩, u, bs ++ cs, hu, List.rel_append hbs hcs, by rw [List.flatten_append]⟩
  · intro h
    obtain ⟨hbyte, u, bs, hu, hbs, rfl⟩ := h
    have hv := List.forall₂_take m hbs
    have hw := List.forall₂_drop m hbs
    rw [List.take_left' front.length_toList] at hv
    rw [List.drop_left' front.length_toList] at hw
    refine ⟨u, bs.flatten, hu, ⟨(bs.take m).flatten, (bs.drop m).flatten, ?_, ?_, ?_⟩, rfl⟩
    · exact Items.wire_eq_ok.mpr ⟨fun ht => (hbyte ht).1, _, hv, rfl⟩
    · exact Items.wire_eq_ok.mpr ⟨fun ht => (hbyte ht).2, _, hw, rfl⟩
    · rw [← List.flatten_append, List.take_append_drop]

theorem wire_map {l : Listing} {k v : Ty} {es : Entries k v} {ctx : Context} {b : Bytes} :
    (map es : Value (.map l k v)).wire ctx = .ok b ↔
      ∃ ps u, EntryWires ctx.element es.toList ps ∧ (Encode.writeLen ps.length).bytes = .ok u ∧
        b = u ++ (sortByKey ps).flatMap fun p => p.1 ++ p.2 := by
  rw [wire, encode_map, Encode.bytes_lift_bind, bind_eq_ok]
  simp only [es.encodeApart_eq_ok, Encode.writeEntries, Encode.bytes_bind_eq_ok (Encode.appends_put _),
    Encode.bytes_put]
  constructor
  · intro h
    obtain ⟨ps, hps, u, _, hu, ⟨⟩, rfl⟩ := h
    exact ⟨ps, u, hps, hu, rfl⟩
  · intro h
    obtain ⟨ps, u, hps, hu, rfl⟩ := h
    exact ⟨ps, hps, u, _, hu, rfl, rfl⟩

theorem wire_set {l : Listing} {t : Ty} {n : Nat} {xs : Items t n} {ctx : Context} {b : Bytes} :
    (set xs : Value (.set l t)).wire ctx = .ok b ↔
      ∃ bs u, Wires ctx.element xs.toList bs ∧ (Encode.writeLen bs.length).bytes = .ok u ∧
        b = u ++ (sortBytes bs).flatten := by
  rw [wire, encode_set, Encode.bytes_lift_bind, bind_eq_ok]
  simp only [xs.encodeApart_eq_ok, Encode.writeSet, Encode.bytes_bind_eq_ok (Encode.appends_put _),
    Encode.bytes_put]
  constructor
  · intro h
    obtain ⟨bs, hbs, u, _, hu, ⟨⟩, rfl⟩ := h
    exact ⟨bs, u, hbs, hu, rfl⟩
  · intro h
    obtain ⟨bs, u, hbs, hu, rfl⟩ := h
    exact ⟨bs, hbs, u, _, hu, rfl, rfl⟩

theorem wire_union {name : String} {cs : Cases} {c : Choice cs} {ctx : Context} {b : Bytes} :
    (union c : Value (.union name cs)).wire ctx = .ok b ↔
      ∃ d v, Encode.discriminantOf name c.payload ctx = .ok d ∧ c.value.wire ctx.bare = .ok v ∧
        b = digitsLE prefixWidth d.toBitVec.toNat ++ v := by
  rw [wire, encode_union, Encode.bytes_lift_bind, bind_eq_ok, c.encodePayload_eq]
  simp only [Encode.bytes_bind_eq_ok (c.value.appends_encode _), Encode.writeDiscriminant, Encode.bytes_put]
  constructor
  · intro h
    obtain ⟨d, hd, _, v, ⟨⟩, hv, rfl⟩ := h
    exact ⟨d, v, hd, hv, rfl⟩
  · intro h
    obtain ⟨d, v, hd, hv, rfl⟩ := h
    exact ⟨d, hd, _, v, rfl, hv, rfl⟩

end Value

theorem Record.wire_cons {name : String} {declared : Declaration} {t : Ty} {fs : Fields} {x : Value t}
    {xs : Record fs} {container : Option String} {ctx : Context} {b : Bytes} :
    (@Record.cons _ name declared t fs x xs).wire container ctx = .ok b ↔
      if declared.skips then xs.wire container ctx = .ok b
      else ∃ fieldCtx u v, declared.enter container ctx = .ok fieldCtx ∧ x.wire fieldCtx = .ok u ∧
        xs.wire container ctx = .ok v ∧ b = u ++ v := by
  have hxs := xs.appends_encode container ctx (xs.all_of_forall fun _ y ctx => y.appends_encode ctx)
  rw [wire, encode]
  split
  · rfl
  · rw [Encode.bytes_lift_bind, bind_eq_ok]
    simp only [Encode.bytes_bind_eq_ok hxs]
    exact ⟨fun ⟨fieldCtx, hctx, u, v, h⟩ => ⟨fieldCtx, u, v, hctx, h⟩,
      fun ⟨fieldCtx, u, v, hctx, h⟩ => ⟨fieldCtx, hctx, u, v, h⟩⟩

theorem Record.wire_omitted {name : String} {declared : Declaration} {t : Ty} {fs : Fields}
    {unheld : declared.holds = false} {xs : Record fs} {container : Option String} {ctx : Context} {b : Bytes} :
    (@Record.omitted _ name declared t fs unheld xs).wire container ctx = .ok b ↔
      declared.skips = true ∧ xs.wire container ctx = .ok b := by
  rw [wire, encode, Encode.bytes_lift_bind, bind_eq_ok]
  cases declared with
  | valid d =>
      have hskip : d.skip = true := by simpa [Declaration.holds] using unheld
      simp [Declaration.reach, Declaration.get, Except.mapError, Declaration.skips, hskip, wire]
  | faulty e => simp [Declaration.reach, Declaration.get, Except.mapError, Declaration.skips]

end CanonicalWire
