import CanonicalWire.Proofs.Recursion

/-!
Decoding is decided by the bytes that it takes. Checks are made on what has been taken and never on how much
is left, so bytes behind the input change nothing unless the input ends too early.
-/

namespace CanonicalWire

namespace Decode

variable {α β : Type}

/-- The action asks for more bytes than are there. -/
def RunsOut (d : Decode α) (input : Bytes) : Prop :=
  ∃ needed remaining, d input = .error (.unexpectedEndOfStream needed remaining)

/-- Unless it runs out of bytes, the action does the same whatever follows its input, and leaves this over. -/
def IgnoresSuffix (d : Decode α) : Prop :=
  ∀ input suffix, ¬d.RunsOut input → d (input ++ suffix) = (d input).map fun r => (r.1, r.2 ++ suffix)

theorem not_runsOut_of_ok {d : Decode α} {input : Bytes} {r : α × Bytes} (h : d input = .ok r) :
    ¬d.RunsOut input := by
  rintro ⟨needed, remaining, hout⟩
  cases h.symm.trans hout

theorem not_runsOut_of_error {d : Decode α} {input : Bytes} {e : CodecError} (h : d input = .error e)
    (he : ∀ needed remaining, e ≠ .unexpectedEndOfStream needed remaining) : ¬d.RunsOut input := by
  rintro ⟨needed, remaining, hout⟩
  exact he needed remaining (Except.error.inj (h.symm.trans hout))

/-- An action that passes on the errors of another runs out where that does. -/
theorem RunsOut.passOn {d : Decode α} {e : Decode β} {input : Bytes} (h : d.RunsOut input)
    (he : ∀ err, d input = .error err → e input = .error err) : e.RunsOut input := by
  obtain ⟨needed, remaining, hrun⟩ := h
  exact ⟨needed, remaining, he _ hrun⟩

theorem RunsOut.bind {d : Decode α} {input : Bytes} (h : d.RunsOut input) (f : α → Decode β) :
    (d >>= f).RunsOut input :=
  h.passOn fun _ hrun => bind_of_error hrun f

namespace IgnoresSuffix

theorem pure (a : α) : IgnoresSuffix (pure a : Decode α) := fun _ _ _ => rfl

theorem throw (e : CodecError) : IgnoresSuffix (throw e : Decode α) := fun _ _ _ => rfl

theorem bind {d : Decode α} {f : α → Decode β} (hd : d.IgnoresSuffix) (hf : ∀ a, (f a).IgnoresSuffix) :
    IgnoresSuffix (d >>= f) := by
  intro input suffix henough
  have hhead := hd input suffix fun hout => henough (hout.bind f)
  rw [bind_apply, bind_apply, hhead]
  cases hrun : d input with
  | error e => rfl
  | ok r =>
      have hsame : (d >>= f) input = f r.1 r.2 := bind_of_ok hrun f
      rw [RunsOut, hsame] at henough
      exact hf r.1 r.2 suffix henough

theorem map {d : Decode α} (hd : d.IgnoresSuffix) (g : α → β) :
    IgnoresSuffix (d >>= fun a => Pure.pure (g a)) := hd.bind fun a => pure (g a)

theorem lift_bind {e : Except CodecError α} {f : α → Decode β} (hf : ∀ a, (f a).IgnoresSuffix) :
    IgnoresSuffix ((liftM e : StateT Bytes (Except CodecError) α) >>= f) := by
  cases e with
  | error e => exact throw e
  | ok a => exact hf a

end IgnoresSuffix

theorem ignoresSuffix_take (n : Nat) : (take n).IgnoresSuffix := by
  intro input suffix henough
  by_cases hle : n ≤ input.length
  · have hle' : n ≤ (input ++ suffix).length := by
      rw [List.length_append]
      omega
    simp only [take, dif_pos hle, dif_pos hle', List.take_append_of_le_length hle,
      List.drop_append_of_le_length hle, Except.map]
  · exact absurd ⟨n, input.length, take_of_lt (Nat.lt_of_not_le hle)⟩ henough

theorem ignoresSuffix_number (width : Nat) : (number width).IgnoresSuffix := (ignoresSuffix_take width).map _

theorem ignoresSuffix_readCount (ctx : Context) : (readCount ctx).IgnoresSuffix := by
  rw [readCount]
  split
  · exact .pure _
  · exact ignoresSuffix_number prefixWidth

theorem ignoresSuffix_readByteRun (ctx : Context) : (readByteRun ctx).IgnoresSuffix :=
  (ignoresSuffix_readCount ctx).bind fun len => .lift_bind fun _ => (ignoresSuffix_take len).map _

theorem ignoresSuffix_readBool : readBool.IgnoresSuffix := by
  refine (ignoresSuffix_number 1).bind fun n => ?_
  match n with
  | 0 | 1 => exact .pure _
  | n + 2 => exact .throw _

theorem ignoresSuffix_readBigUint (width : Nat) : (readBigUint width).IgnoresSuffix :=
  (ignoresSuffix_take width).map _

theorem ignoresSuffix_readNatural : readNatural.IgnoresSuffix := (ignoresSuffix_readBigUint _).map _

theorem ignoresSuffix_readI128 : readI128.IgnoresSuffix := by
  refine ((ignoresSuffix_readBigUint _).map _).bind fun x => ?_
  split
  · exact .throw _
  · exact .pure _

theorem ignoresSuffix_readText (ctx : Context) : (readText ctx).IgnoresSuffix := by
  refine (ignoresSuffix_readByteRun ctx).bind fun bs => ?_
  split
  · exact .pure _
  · exact .throw _

theorem ignoresSuffix_readVariant (union : String) (ctx : Context) : (readVariant union ctx).IgnoresSuffix := by
  rw [readVariant]
  split
  · exact .throw _
  · refine ((ignoresSuffix_number prefixWidth).map _).bind fun d => ?_
    split
    · exact .throw _
    · exact .pure _

section Loops

variable [Declarations] {t : Ty} {item : Decode (Value t)}

theorem IgnoresSuffix.weighed (h : item.IgnoresSuffix) (count : Nat) (ctx : Context) :
    (weighed item count ctx).IgnoresSuffix := by
  intro input suffix henough
  have hout : ¬item.RunsOut input := fun hout => henough <| hout.passOn fun err hrun => by
    rw [Decode.weighed, hrun]
    rfl
  rw [Decode.weighed, Decode.weighed, h input suffix hout]
  cases item input with
  | error e => rfl
  | ok r =>
      -- what an item takes is the same for both inputs, so it is nothing for both or for none
      have hsame : (r.2 ++ suffix).length = (input ++ suffix).length ↔ r.2.length = input.length := by
        simp only [List.length_append, Nat.add_right_cancel_iff]
      show (if (r.2 ++ suffix).length = (input ++ suffix).length then _ else _) =
        Except.map _ (if r.2.length = input.length then _ else _)
      simp only [hsame]
      split
      · cases checkLength count ctx <;> rfl
      · rfl

theorem ignoresSuffix_readEach (h : item.IgnoresSuffix) (count : Nat) (ctx : Context) : (len : Nat) →
    (readEach item count ctx len).IgnoresSuffix
  | 0 => .pure _
  | len + 1 => by
      rw [readEach_succ]
      exact (h.weighed count ctx).bind fun x => (ignoresSuffix_readEach h count ctx len).map _

theorem ignoresSuffix_readRun (h : item.IgnoresSuffix) (len : Nat) (ctx : Context) :
    (readRun t item len ctx).IgnoresSuffix := by
  by_cases ht : t = .byte
  · subst ht
    exact .lift_bind fun _ => (ignoresSuffix_take len).map _
  · rw [readRun_of_ne ht]
    exact ignoresSuffix_readEach h len ctx len

theorem ignoresSuffix_withBytes (h : item.IgnoresSuffix) : (withBytes item).IgnoresSuffix := by
  intro input suffix henough
  have hout : ¬item.RunsOut input := fun hout => henough <| hout.passOn fun err hrun => by
    rw [withBytes, hrun]
    rfl
  rw [withBytes, withBytes, h input suffix hout]
  cases item input with
  | error e => rfl
  | ok r =>
      have htaken : (input ++ suffix).take ((input ++ suffix).length - (r.2 ++ suffix).length) =
          input.take (input.length - r.2.length) := by
        rw [List.length_append, List.length_append, Nat.add_sub_add_right,
          List.take_append_of_le_length (Nat.sub_le _ _)]
      show Except.ok ((r.1, (input ++ suffix).take _), r.2 ++ suffix) = _
      rw [htaken]
      rfl

theorem ignoresSuffix_readKey (h : item.IgnoresSuffix) (index : Nat) (previous : Option Bytes) :
    (readKey item index previous).IgnoresSuffix := by
  rw [readKey_eq]
  refine (ignoresSuffix_withBytes h).bind fun r => ?_
  unfold inOrder
  split
  · exact .pure r
  · split
    · exact .pure r
    · exact .throw _

theorem ignoresSuffix_readSet (h : item.IgnoresSuffix) : (len index : Nat) → (previous : Option Bytes) →
    (readSet item len index previous).IgnoresSuffix
  | 0, _, _ => .pure _
  | len + 1, index, previous => (ignoresSuffix_readKey h index previous).bind fun r =>
      (ignoresSuffix_readSet h len (index + 1) (some r.2)).map _

theorem ignoresSuffix_readEntries {v : Ty} {value : Decode (Value v)} (h : item.IgnoresSuffix)
    (hvalue : value.IgnoresSuffix) : (len index : Nat) → (previous : Option Bytes) →
      (readEntries item value len index previous).IgnoresSuffix
  | 0, _, _ => .pure _
  | len + 1, index, previous => (ignoresSuffix_readKey h index previous).bind fun r => hvalue.bind fun _ =>
      (ignoresSuffix_readEntries h hvalue len (index + 1) (some r.2)).map _

end Loops

end Decode

theorem Scalar.ignoresSuffix_decode (s : Scalar) (ctx : Context) : (s.decode ctx).IgnoresSuffix := by
  cases s with
  | bool => exact Decode.ignoresSuffix_readBool
  | int k => exact (Decode.ignoresSuffix_number _).map _
  | u128 => exact (Decode.ignoresSuffix_readBigUint _).map _
  | i128 => exact Decode.ignoresSuffix_readI128
  | uint n => exact (Decode.ignoresSuffix_take n).map _
  | natural => exact Decode.ignoresSuffix_readNatural
  | integer | decimal => exact Decode.ignoresSuffix_readNatural.map _
  | text => exact Decode.ignoresSuffix_readText ctx
  | bytes => exact Decode.ignoresSuffix_readByteRun ctx
  | uuid => exact .lift_bind fun _ => Decode.ignoresSuffix_take 16

namespace Decode.IgnoresSuffix

variable {α : Type} {d : Decode α}

theorem append_of_ok (hd : d.IgnoresSuffix) {input rest : Bytes} {a : α} (h : d input = .ok (a, rest))
    (suffix : Bytes) : d (input ++ suffix) = .ok (a, rest ++ suffix) := by
  rw [hd input suffix (not_runsOut_of_ok h), h]
  rfl

/-- Of bytes that are used up no beginning is enough. -/
theorem runsOut_of_cut (hd : d.IgnoresSuffix) {start suffix : Bytes} {a : α}
    (h : d (start ++ suffix) = .ok (a, [])) (hsuffix : suffix ≠ []) : d.RunsOut start := by
  by_contra henough
  rw [hd start suffix henough] at h
  cases hstart : d start with
  | error e =>
      rw [hstart] at h
      cases h
  | ok r =>
      rw [hstart] at h
      have hrest : r.2 ++ suffix = [] := congrArg Prod.snd (Except.ok.inj h)
      exact hsuffix (List.append_eq_nil_iff.mp hrest).2

end Decode.IgnoresSuffix

section Types

variable [Declarations] {self : DecodeRecursive}

theorem Fields.ignoresSuffix_decodeWith (k : RecordKind) : (fs : Fields) → (ctx : Context) →
    (∀ t ∈ fs.types, ∀ ctx, (t.decodeWith self ctx).IgnoresSuffix) → (fs.decodeWith self k ctx).IgnoresSuffix
  | .nil, _, _ => .pure _
  | .cons _ declared t rest, ctx, h => by
      obtain ⟨ht, hrest⟩ := List.forall_mem_cons.mp h
      have hxs := rest.ignoresSuffix_decodeWith k ctx hrest
      rw [Fields.decodeWith]
      split
      · exact hxs.map _
      · exact .lift_bind fun fieldCtx => (ht fieldCtx).bind fun x => hxs.map _

theorem Cases.ignoresSuffix_decodeWith (union : String) (payload : Ty) : (cs : Cases) → (ctx : Context) →
    (∀ t ∈ cs.types, ∀ ctx, (t.decodeWith self ctx).IgnoresSuffix) →
      (cs.decodeWith self union payload ctx).IgnoresSuffix
  | .nil, _, _ => .throw _
  | .cons _ t rest, ctx, h => by
      obtain ⟨ht, hrest⟩ := List.forall_mem_cons.mp h
      rw [Cases.decodeWith]
      split
      · exact (ht ctx).map _
      · exact (rest.ignoresSuffix_decodeWith union payload ctx hrest).map _

theorem Ty.ignoresSuffix_decodeWith (hself : ∀ r ctx, (self r ctx).IgnoresSuffix) (t : Ty) (ctx : Context) :
    (t.decodeWith self ctx).IgnoresSuffix := by
  induction t generalizing ctx with
  | scalar s => exact (s.ignoresSuffix_decode ctx).map _
  | option t ih =>
      rw [Ty.decodeWith]
      split
      · refine Decode.ignoresSuffix_readBool.bind fun b => ?_
        split
        · exact (ih ctx.present).map _
        · exact .pure _
      · exact (ih ctx).map _
  | pointer p t ih => exact (ih ctx).map _
  | sequence k t ih | deque t ih =>
      exact (Decode.ignoresSuffix_readCount ctx).bind fun len =>
        (Decode.ignoresSuffix_readRun (ih ctx.element) len ctx.element).map _
  | array t n ih => exact (Decode.ignoresSuffix_readRun (ih ctx.element) n ctx.element).map _
  | map l k v ihk ihv =>
      exact ((Decode.ignoresSuffix_number prefixWidth).bind fun len =>
        Decode.ignoresSuffix_readEntries (ihk ctx.element) (ihv ctx.element) len 0 none).map _
  | set l t ih =>
      exact ((Decode.ignoresSuffix_number prefixWidth).bind fun len =>
        (Decode.ignoresSuffix_readSet (ih ctx.element) len 0 none).map _).map _
  | record k fs ih => exact (fs.ignoresSuffix_decodeWith k ctx ih).map _
  | union name cs ih =>
      exact (Decode.ignoresSuffix_readVariant name ctx).bind fun variant =>
        (cs.ignoresSuffix_decodeWith name variant.payload ctx.bare ih).map _
  | recursive r => exact (hself r ctx).map _

theorem ignoresSuffix_decodeNested : (n : Nat) → (r : Recursive) → (ctx : Context) →
    (decodeNested n r ctx).IgnoresSuffix
  | 0, _, _ => .throw _
  | n + 1, r, ctx => r.body.ignoresSuffix_decodeWith (ignoresSuffix_decodeNested n) ctx

theorem Ty.ignoresSuffix_decode (t : Ty) (ctx : Context) : (t.decode ctx).IgnoresSuffix := by
  intro input suffix henough
  -- the depth that is enough for the longer input is enough for both
  have hlt : input.length < (input ++ suffix).length + 1 := by
    rw [List.length_append]
    omega
  unfold Decode.RunsOut at henough
  rw [t.decode_eq_nested ctx hlt] at henough ⊢
  rw [t.decode_eq_nested ctx (Nat.lt_succ_self _)]
  exact t.ignoresSuffix_decodeWith (ignoresSuffix_decodeNested _) ctx input suffix henough

theorem Ty.reads_decode {t : Ty} {ctx : Context} {b : Bytes} {x : Value t} (h : t.decode ctx b = .ok (x, [])) :
    (t.decode ctx).Reads b x := (t.ignoresSuffix_decode ctx).append_of_ok h

theorem Codec.decode_eq_ok {c : Codec} {t : Ty} {input : Bytes} {x : Value t} :
    c.decode t input = .ok x ↔ c.decodeFrom t input = .ok (x, []) := by
  rw [Codec.decode]
  cases c.decodeFrom t input with
  | error e => exact ⟨nofun, nofun⟩
  | ok r =>
      obtain ⟨y, _ | ⟨b, bs⟩⟩ := r
      · exact ⟨fun h => by cases h; rfl, fun h => by cases h; rfl⟩
      · exact ⟨nofun, nofun⟩

theorem Codec.decode_of_rest {c : Codec} {t : Ty} {input rest : Bytes} {x : Value t}
    (h : c.decodeFrom t input = .ok (x, rest)) (hrest : rest ≠ []) :
    c.decode t input = .error (.trailingData rest.length) := by
  rw [Codec.decode, h]
  cases rest with
  | nil => exact absurd rfl hrest
  | cons b bs => rfl

/-- Unless the input ends too early, bytes that follow it change nothing about how it is decoded, and are left
over. So bytes that are used up run out where they are cut short, and what is put behind them is trailing
data. -/
theorem Ty.decode_append (t : Ty) :
    (∀ ctx input suffix, ¬(t.decode ctx).RunsOut input →
      t.decode ctx (input ++ suffix) = (t.decode ctx input).map fun r => (r.1, r.2 ++ suffix)) ∧
    (∀ ctx start suffix x, t.decode ctx (start ++ suffix) = .ok (x, []) → suffix ≠ [] →
      (t.decode ctx).RunsOut start) ∧
    ∀ (c : Codec) input suffix x, c.decode t input = .ok x → suffix ≠ [] →
      c.decode t (input ++ suffix) = .error (.trailingData suffix.length) := by
  refine ⟨t.ignoresSuffix_decode, ?_, ?_⟩
  · intro ctx start suffix x h hsuffix
    exact (t.ignoresSuffix_decode ctx).runsOut_of_cut h hsuffix
  · intro c input suffix x h hsuffix
    exact Codec.decode_of_rest (Ty.reads_decode (Codec.decode_eq_ok.mp h) suffix) hsuffix

end Types

section Words

def wordBytes : Bytes := [2, 0, 0, 0, 0, 1, 7, 1, 0, 8]

/-- The same words with the keys the other way round. -/
def swappedBytes : Bytes := [2, 0, 0, 0, 1, 0, 8, 0, 1, 7]

theorem Ty.decode_append_words :
    Ty.decode (.map .byKey .u16 .u8) (.start .empty) (wordBytes ++ [9]) = .ok (wordMap, [9]) ∧
      Ty.decode (.map .byKey .u16 .u8) (.start .empty) (swappedBytes ++ [9]) = .error (.nonCanonicalMap 1) ∧
      (Ty.decode (.map .byKey .u16 .u8) (.start .empty)).RunsOut [2, 0, 0, 0, 0, 1, 7, 1, 0] ∧
      Codec.decode {} (.map .byKey .u16 .u8) (wordBytes ++ [9]) = .error (.trailingData 1) := by
  have hwords : Ty.decode (.map .byKey .u16 .u8) (.start .empty) wordBytes = .ok (wordMap, []) := by cbv
  have hswapped : Ty.decode (.map .byKey .u16 .u8) (.start .empty) swappedBytes =
      .error (.nonCanonicalMap 1) := by cbv
  obtain ⟨happend, hcut, htrailing⟩ := decode_append (.map .byKey .u16 .u8)
  have hwordsAppend := happend _ wordBytes [9] (Decode.not_runsOut_of_ok hwords)
  have hswappedAppend := happend _ swappedBytes [9] (Decode.not_runsOut_of_error hswapped (by simp))
  rw [hwords] at hwordsAppend
  rw [hswapped] at hswappedAppend
  exact ⟨hwordsAppend, hswappedAppend, hcut _ [2, 0, 0, 0, 0, 1, 7, 1, 0] [8] wordMap hwords (by decide),
    htrailing {} wordBytes [9] wordMap (Codec.decode_eq_ok.mpr hwords) (by decide)⟩

end Words

end CanonicalWire
