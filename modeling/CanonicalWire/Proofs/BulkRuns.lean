import CanonicalWire.Proofs.RoundTrip
import CanonicalWire.Proofs.SortedSequence
import CanonicalWire.Proofs.Suffix

/-!
Runs of bytes are written and read at once. Within the ceiling this does what writing and reading them byte by
byte does, so sequences, deques and arrays of bytes are laid out as those of any other type whose values are
one byte each. Only the numbers in the report that too few bytes are left differ.
-/

namespace CanonicalWire

namespace Decode

/-- On the input both actions succeed, with results that correspond and the same bytes left, or both run out
of bytes. -/
inductive Parallel {α β : Type} (f : α → β) (d : Decode α) (e : Decode β) (input : Bytes) : Prop where
  | ok {a : α} {rest : Bytes} (hd : d input = .ok (a, rest)) (he : e input = .ok (f a, rest))
  | out (hd : d.RunsOut input) (he : e.RunsOut input)

section Parallel

variable {ctx : Context} {input : Bytes} {α β γ δ : Type} {f : α → β} {d : Decode α} {e : Decode β}

theorem Parallel.map (h : Parallel f d e input) (g : α → γ) (g' : β → δ) {f' : γ → δ}
    (hf : ∀ a, f' (g a) = g' (f a)) :
    Parallel f' (d >>= fun a => pure (g a)) (e >>= fun b => pure (g' b)) input := by
  cases h with
  | ok hd he =>
      refine .ok (bind_of_ok hd _) ?_
      rw [hf]
      exact bind_of_ok he _
  | out hd he => exact .out (hd.bind _) (he.bind _)

theorem readCount_ok_or_runsOut (ctx : Context) (input : Bytes) :
    (∃ n rest, readCount ctx input = .ok (n, rest)) ∨ (readCount ctx).RunsOut input := by
  rw [RunsOut, readCount]
  cases ctx.fixedLen with
  | some len => exact .inl ⟨len, input, rfl⟩
  | none =>
      rcases Nat.lt_or_ge input.length prefixWidth with hlt | hle
      · exact .inr ⟨_, _, bind_of_error (take_of_lt hlt) _⟩
      · exact .inl ⟨_, _, bind_of_ok (take_of_le hle) _⟩

/-- The same number is read before both. -/
theorem Parallel.readCount_bind {d : Nat → Decode α} {e : Nat → Decode β}
    (h : ∀ n rest, readCount ctx input = .ok (n, rest) → Parallel f (d n) (e n) rest) :
    Parallel f (readCount ctx >>= d) (readCount ctx >>= e) input := by
  rcases readCount_ok_or_runsOut ctx input with ⟨n, rest, hcount⟩ | hout
  · have hpass {κ : Type} (k : Nat → Decode κ) : (readCount ctx >>= k) input = k n rest := bind_of_ok hcount k
    cases h n rest hcount with
    | ok hd he => exact .ok ((hpass d).trans hd) ((hpass e).trans he)
    | out hd he => exact .out (by rwa [RunsOut, hpass]) (by rwa [RunsOut, hpass])
  · exact .out (hout.bind d) (hout.bind e)

end Parallel

end Decode

/-! ### Cells of one byte -/

/-- The types, other than `u8` itself, that put nothing around a byte: pointers and tuples of one member. -/
inductive ByteCell where
  | pointer (p : Indirection)
  | single
deriving DecidableEq

namespace ByteCell

def ty : ByteCell → Ty
  | .pointer p => .pointer p .byte
  | .single => .tuple [.byte]

theorem ty_ne_byte (c : ByteCell) : c.ty ≠ .byte := by
  cases c <;> exact nofun

end ByteCell

section Values

variable [Declarations]

namespace Items

/-- The items with a function applied to each. -/
def map {s t : Ty} (f : Value s → Value t) : {n : Nat} → Items s n → Items t n
  | 0, .nil => .nil
  | _ + 1, .cons x xs => .cons (f x) (map f xs)

theorem map_id {t : Ty} : {n : Nat} → (xs : Items t n) → xs.map id = xs
  | 0, .nil => rfl
  | _ + 1, .cons x xs => congrArg (Items.cons x) (map_id xs)

theorem encodeEach_map {s t : Ty} {f : Value s → Value t} {ctx : Context}
    (hf : ∀ x, (f x).encode ctx = x.encode ctx) : {n : Nat} → (xs : Items s n) →
      (xs.map f).encodeEach ctx = xs.encodeEach ctx
  | 0, .nil => rfl
  | _ + 1, .cons x xs => by rw [map, encodeEach, encodeEach, hf, encodeEach_map hf xs]

theorem encodeEach_eq_put {n : Nat} (xs : Items .byte n) (ctx : Context) :
    xs.encodeEach ctx = Encode.put xs.bytes := by
  have happends := xs.appends_encodeEach ctx fun x _ => x.appends_encode ctx
  funext written
  rw [happends, xs.encodeEach_byte]
  rfl

end Items

/-! ### The loops -/

namespace Decode

variable {s t : Ty} {item : Decode (Value t)} {hold : Value .byte → Value t} {ctx : Context} {n : Nat} {input : Bytes}

/-- The action takes one byte and puts it into a value, and asks for this byte if none is left. -/
structure ReadsByte (item : Decode (Value t)) (hold : Value .byte → Value t) : Prop where
  cons : ∀ b, item.Reads [b] (hold (.ofByte b))
  nil : item [] = .error (.unexpectedEndOfStream 1 0)

theorem readsByte_byte (ctx : Context) : (Ty.byte.decode ctx).ReadsByte id := by
  refine ⟨reads_decode_byte, ?_⟩
  rw [Ty.decode_eq]
  rfl

theorem ReadsByte.map {item : Decode (Value s)} {hold : Value .byte → Value s} (h : item.ReadsByte hold)
    (f : Value s → Value t) : ReadsByte (item >>= fun x => pure (f x)) (f ∘ hold) :=
  ⟨fun b => (h.cons b).map f, bind_of_error h.nil _⟩

/-- An item that takes a byte is not held to the ceiling. -/
theorem ReadsByte.weighed (h : item.ReadsByte hold) (count : Nat) (ctx : Context) :
    (weighed item count ctx).ReadsByte hold := by
  refine ⟨fun b rest => ?_, ?_⟩
  · rw [weighed_of_ok (h.cons b rest), if_neg (List.cons_ne_nil b [])]
  · rw [Decode.weighed, h.nil]
    rfl

theorem ReadsByte.reads_readEach (h : item.ReadsByte hold) (count : Nat) (ctx : Context) (block : Block n) :
    (readEach item count ctx n).Reads block.bytes ((Items.ofBlock block).map hold) := by
  obtain ⟨bytes, rfl⟩ := block
  induction bytes with
  | nil => exact .pure _
  | cons b bytes ih =>
      have hstep := readEach_succ item count ctx bytes.length
      exact hstep ▸ ((h.weighed count ctx).cons b).bind (ih.map (Items.cons (hold (.ofByte b))))

theorem ReadsByte.readEach_of_le (h : item.ReadsByte hold) (count : Nat) (ctx : Context) (hle : n ≤ input.length) :
    readEach item count ctx n input = .ok ((Items.ofBlock (firstBlock hle)).map hold, input.drop n) := by
  have hinput : (firstBlock hle).bytes ++ input.drop n = input := List.take_append_drop n input
  have hread := h.reads_readEach count ctx (firstBlock hle) (input.drop n)
  rwa [hinput] at hread

/-- The loop goes on until it misses a byte. -/
theorem ReadsByte.readEach_of_lt (h : item.ReadsByte hold) (count : Nat) (ctx : Context) (hlt : input.length < n) :
    readEach item count ctx n input = .error (.unexpectedEndOfStream 1 0) := by
  -- each byte that is left is taken before the loop fails, so the number asked for shrinks with them
  induction input generalizing n with
  | nil =>
      obtain ⟨n, rfl⟩ := Nat.exists_eq_succ_of_ne_zero hlt.ne'
      rw [readEach_succ]
      exact bind_of_error (h.weighed count ctx).nil _
  | cons b rest ih =>
      obtain ⟨n, rfl⟩ := Nat.exists_eq_succ_of_ne_zero (Nat.ne_zero_of_lt hlt)
      rw [readEach_succ]
      exact (bind_of_ok ((h.weighed count ctx).cons b rest) _).trans
        (bind_of_error (ih (Nat.lt_of_succ_lt_succ hlt)) _)

/-! ### The runs -/

theorem readRun_byte_of_le (item : Decode (Value .byte)) (h : n ≤ ctx.limits.maxBytesLen) (hle : n ≤ input.length) :
    readRun .byte item n ctx input = .ok (.ofBlock (firstBlock hle), input.drop n) := by
  show readBlock n ctx input = _
  rw [readBlock_of_le h]
  exact bind_of_ok (take_of_le hle) _

theorem readRun_byte_of_lt (item : Decode (Value .byte)) (h : n ≤ ctx.limits.maxBytesLen) (hlt : input.length < n) :
    readRun .byte item n ctx input = .error (.unexpectedEndOfStream n input.length) := by
  show readBlock n ctx input = _
  rw [readBlock_of_le h]
  exact bind_of_error (take_of_lt hlt) _

theorem readRun_byte_of_oversized (item : Decode (Value .byte)) (h : ctx.limits.maxBytesLen < n) (input : Bytes) :
    readRun .byte item n ctx input = .error (.oversizedLength n ctx.limits.maxBytesLen) :=
  readBlock_of_lt h input

end Decode

namespace Encode

variable {n : Nat} {ctx : Context}

theorem writeRun_byte (xs : Items .byte n) (oneByOne : Encode) (h : n ≤ ctx.limits.maxBytesLen) :
    writeRun xs oneByOne ctx = put xs.bytes := by
  rw [writeRun, if_pos rfl, checkLength_of_le h]
  rfl

theorem writeRun_byte_of_oversized (xs : Items .byte n) (oneByOne : Encode) (h : ctx.limits.maxBytesLen < n) :
    writeRun xs oneByOne ctx = throw (.oversizedLength n ctx.limits.maxBytesLen) := by
  rw [writeRun, if_pos rfl, checkLength_of_lt h]
  rfl

end Encode

/-! ### Cells in place of bytes -/

namespace ByteCell

/-- The cell that holds a byte. -/
def hold : (c : ByteCell) → Value .byte → Value c.ty
  | .pointer _, x => .pointer x
  | .single, x => .record (.cons x .nil)

variable (c : ByteCell)

def sequence {k : SequenceKind} : Value (.sequence k .byte) → Value (.sequence k c.ty)
  | .sequence xs => .sequence (xs.map c.hold)

def deque : Value (.deque .byte) → Value (.deque c.ty)
  | .deque front back => .deque (front.map c.hold) (back.map c.hold)

def array {n : Nat} : Value (.array .byte n) → Value (.array c.ty n)
  | .array xs => .array (xs.map c.hold)

theorem encode_hold (x : Value .byte) (ctx : Context) : (c.hold x).encode ctx = x.encode ctx := by
  cases c with
  | pointer p => rfl
  | single =>
      cases x
      rfl

theorem readsByte_decode (ctx : Context) : (c.ty.decode ctx).ReadsByte c.hold := by
  cases c with
  | pointer p =>
      have h := (Decode.readsByte_byte ctx).map (Value.pointer (p := p))
      rw [Ty.decode_eq] at h ⊢
      exact h
  | single =>
      have h := (Decode.readsByte_byte ctx.bare).map fun x => (.record (.cons x .nil) : Value (.tuple [.byte]))
      rw [Ty.decode_eq] at h ⊢
      exact ⟨h.cons, h.nil⟩

theorem writeRun_map {n : Nat} (xs : Items .byte n) (ctx : Context) (h : n ≤ ctx.limits.maxBytesLen) :
    Encode.writeRun (xs.map c.hold) ((xs.map c.hold).encodeEach ctx) ctx =
      Encode.writeRun xs (xs.encodeEach ctx) ctx := by
  rw [Encode.writeRun_byte xs _ h, Encode.writeRun, if_neg c.ty_ne_byte,
    Items.encodeEach_map fun x => c.encode_hold x ctx, Items.encodeEach_eq_put]

theorem parallel_readRun {n : Nat} (ctx : Context) (h : n ≤ ctx.limits.maxBytesLen) (input : Bytes) :
    Decode.Parallel (Items.map c.hold) (Decode.readRun .byte (Ty.byte.decode ctx) n ctx)
      (Decode.readRun c.ty (c.ty.decode ctx) n ctx) input := by
  have hcell := c.readsByte_decode ctx
  rw [Decode.readRun_of_ne c.ty_ne_byte]
  rcases Nat.lt_or_ge input.length n with hlt | hle
  · exact .out ⟨_, _, Decode.readRun_byte_of_lt _ h hlt⟩ ⟨_, _, hcell.readEach_of_lt n ctx hlt⟩
  · exact .ok (Decode.readRun_byte_of_le _ h hle) (hcell.readEach_of_le n ctx hle)

/-- Within the ceiling, containers of bytes are written as containers of cells that hold these bytes, and every
input is read as both or as neither. -/
structure Compatible (ctx : Context) : Prop where
  encode_sequence : ∀ (k : SequenceKind) {n : Nat} (xs : Items .byte n), n ≤ ctx.limits.maxBytesLen →
    (c.sequence (.sequence (k := k) xs)).encode ctx = (Value.sequence (k := k) xs).encode ctx
  encode_deque : ∀ {m n : Nat} (front : Items .byte m) (back : Items .byte n), m ≤ ctx.limits.maxBytesLen →
    n ≤ ctx.limits.maxBytesLen → (c.deque (.deque front back)).encode ctx = (Value.deque front back).encode ctx
  encode_array : ∀ {n : Nat} (xs : Items .byte n), n ≤ ctx.limits.maxBytesLen →
    (c.array (.array xs)).encode ctx = (Value.array xs).encode ctx
  decode_sequence : ∀ (k : SequenceKind) (input : Bytes),
    (∀ n rest, Decode.readCount ctx input = .ok (n, rest) → n ≤ ctx.limits.maxBytesLen) →
      Decode.Parallel c.sequence (Ty.decode (.sequence k .byte) ctx) (Ty.decode (.sequence k c.ty) ctx) input
  decode_deque : ∀ input : Bytes,
    (∀ n rest, Decode.readCount ctx input = .ok (n, rest) → n ≤ ctx.limits.maxBytesLen) →
      Decode.Parallel c.deque (Ty.decode (.deque .byte) ctx) (Ty.decode (.deque c.ty) ctx) input
  decode_array : ∀ (n : Nat) (input : Bytes), n ≤ ctx.limits.maxBytesLen →
    Decode.Parallel c.array (Ty.decode (.array .byte n) ctx) (Ty.decode (.array c.ty n) ctx) input

theorem compatible (ctx : Context) : c.Compatible ctx where
  encode_sequence k n xs h := by
    rw [sequence, Value.encode_sequence, Value.encode_sequence, c.writeRun_map xs ctx.element h]
  encode_deque front back hm hn := by
    rw [deque, Value.encode_deque, Value.encode_deque, c.writeRun_map front ctx.element hm,
      c.writeRun_map back ctx.element hn]
  encode_array xs h := c.writeRun_map xs ctx.element h
  decode_sequence k input h := by
    rw [Ty.decode_sequence, Ty.decode_sequence]
    exact .readCount_bind fun n rest hcount =>
      (c.parallel_readRun ctx.element (h n rest hcount) rest).map Value.sequence Value.sequence fun _ => rfl
  decode_deque input h := by
    rw [Ty.decode_deque, Ty.decode_deque]
    -- what is read stands in front, and nothing behind it
    exact .readCount_bind fun n rest hcount =>
      (c.parallel_readRun ctx.element (h n rest hcount) rest).map (Value.deque · .nil) (Value.deque · .nil) fun _ => rfl
  decode_array n input h := by
    rw [Ty.decode_array, Ty.decode_array]
    exact (c.parallel_readRun ctx.element h input).map Value.array Value.array fun _ => rfl

end ByteCell

/-- Within the ceiling, the hooks that write and read a run of bytes at once do what the loops over the bytes do;
above it they fail. So bytes may stand in cells wherever they stand in sequences, deques and arrays. -/
theorem Context.byteRun_elementwise (ctx : Context) :
    (∀ {n : Nat} (xs : Items .byte n) (written : Bytes),
      (n ≤ ctx.limits.maxBytesLen →
        Encode.writeRun xs (xs.encodeEach ctx) ctx written = .ok ((), written ++ xs.bytes) ∧
        xs.encodeEach ctx written = .ok ((), written ++ xs.bytes)) ∧
      (ctx.limits.maxBytesLen < n →
        Encode.writeRun xs (xs.encodeEach ctx) ctx written = .error (.oversizedLength n ctx.limits.maxBytesLen))) ∧
    (∀ (n : Nat) (input : Bytes),
      (n ≤ ctx.limits.maxBytesLen → n ≤ input.length → ∃ xs,
        Decode.readRun .byte (Ty.byte.decode ctx) n ctx input = .ok (xs, input.drop n) ∧
        Decode.readEach (Ty.byte.decode ctx) n ctx n input = .ok (xs, input.drop n) ∧ xs.bytes = input.take n) ∧
      (n ≤ ctx.limits.maxBytesLen → input.length < n →
        Decode.readRun .byte (Ty.byte.decode ctx) n ctx input = .error (.unexpectedEndOfStream n input.length) ∧
        Decode.readEach (Ty.byte.decode ctx) n ctx n input = .error (.unexpectedEndOfStream 1 0)) ∧
      (ctx.limits.maxBytesLen < n → Decode.readRun .byte (Ty.byte.decode ctx) n ctx input =
        .error (.oversizedLength n ctx.limits.maxBytesLen))) ∧
    ∀ c : ByteCell, c.Compatible ctx := by
  have hbyte := Decode.readsByte_byte ctx
  refine ⟨fun {n} xs written => ⟨fun h => ?written, fun h => ?refused⟩,
    fun n input => ⟨fun h hle => ?read, fun h hlt => ?short, fun h => Decode.readRun_byte_of_oversized _ h input⟩,
    fun c => c.compatible ctx⟩
  case written =>
    rw [Encode.writeRun_byte xs _ h, xs.encodeEach_eq_put]
    exact ⟨rfl, rfl⟩
  case refused =>
    rw [Encode.writeRun_byte_of_oversized xs _ h]
    rfl
  case read =>
    have hloop := hbyte.readEach_of_le n ctx hle
    rw [Items.map_id] at hloop
    exact ⟨_, Decode.readRun_byte_of_le _ h hle, hloop, Items.bytes_ofBlock (Decode.firstBlock hle)⟩
  case short => exact ⟨Decode.readRun_byte_of_lt _ h hlt, hbyte.readEach_of_lt n ctx hlt⟩

end Values

/-- Two bytes within a ceiling of three, with enough bytes left and with one too few, and four bytes. -/
theorem Context.byteRun_elementwise_three :
    Encode.writeRun (.ofBlock ⟨[1, 2], rfl⟩ : Items .byte 2)
        (Items.encodeEach (.ofBlock ⟨[1, 2], rfl⟩ : Items .byte 2) threeBytes) threeBytes [9] = .ok ((), [9, 1, 2]) ∧
      Decode.readRun .byte (Ty.byte.decode threeBytes) 2 threeBytes [7] = .error (.unexpectedEndOfStream 2 1) ∧
      Decode.readEach (Ty.byte.decode threeBytes) 2 threeBytes 2 [7] = .error (.unexpectedEndOfStream 1 0) ∧
      Decode.readRun .byte (Ty.byte.decode threeBytes) 4 threeBytes [7, 8, 9, 7, 8] = .error (.oversizedLength 4 3) ∧
      (∃ xs, Decode.readEach (Ty.byte.decode threeBytes) 2 threeBytes 2 [7, 8, 9] = .ok (xs, [9]) ∧
        xs.bytes = [7, 8]) ∧
      (ByteCell.single.sequence (.sequence (k := .vector) (.ofBlock ⟨[1, 2], rfl⟩ : Items .byte 2))).encode
        threeBytes [] = .ok ((), [2, 0, 0, 0, 1, 2]) := by
  obtain ⟨hwrite, hread, hcells⟩ := Context.byteRun_elementwise threeBytes
  have hle : 2 ≤ threeBytes.limits.maxBytesLen := by decide
  obtain ⟨hrun, hloop⟩ := (hread 2 [7]).2.1 hle (by decide)
  obtain ⟨xs, -, hxs, hbytes⟩ := (hread 2 [7, 8, 9]).1 hle (by decide)
  refine ⟨((hwrite _ [9]).1 hle).1, hrun, hloop, (hread 4 _).2.2 (by decide), ⟨xs, hxs, hbytes⟩, ?_⟩
  rw [(hcells .single).encode_sequence .vector _ hle]
  rfl

end CanonicalWire
