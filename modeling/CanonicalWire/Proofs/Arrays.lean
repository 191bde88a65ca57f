import CanonicalWire.Proofs.Deque
import CanonicalWire.Proofs.Recursion

/-!
Runs as lists that grow. A loop that appends each item to those before it comes back with as many items as it was
asked for, so a list that is read for an array has the length that the array wants.
-/

namespace CanonicalWire

variable [Declarations]

/-- A list as items of the given number, if it has this length. -/
def Items.ofExactly {t : Ty} (n : Nat) (xs : List (Value t)) : Except CodecError (Items t n) :=
  if h : xs.length = n then .ok (.ofLength xs h) else .error (.lengthMismatch n xs.length)

theorem Items.ofExactly_toList {t : Ty} {n : Nat} (xs : Items t n) : ofExactly n xs.toList = .ok xs := by
  rw [ofExactly, dif_pos xs.length_toList]
  exact congrArg Except.ok (eq_of_toList _ _ (Items.toList_ofLength _ _))

namespace Decode

/-- Reads `len` more items one by one, and appends each to those collected. An item that takes no bytes holds their
number `count` to the ceiling. -/
def collectEach {t : Ty} (item : Decode (Value t)) (count : Nat) (ctx : Context) :
    (len : Nat) → (collected : List (Value t)) → Decode (List (Value t))
  | 0, collected => pure collected
  | len + 1, collected => do
      let before ← get
      let x ← item
      let after ← get
      if after.length = before.length then checkLength count ctx
      collectEach item count ctx len (collected ++ [x])

/-- Reads a run of bytes as a list of values of type `u8`. -/
def collectBlock (len : Nat) (ctx : Context) : Decode (List (Value .byte)) := do
  checkLength len ctx
  let block ← take len
  return block.bytes.map .ofByte

/-- Reads `len` items into a list: all at once if they are of type `u8`, else one by one. -/
def collectRun : (t : Ty) → Decode (Value t) → (len : Nat) → Context → Decode (List (Value t))
  | .scalar (.int .u8), _, len, ctx => collectBlock len ctx
  | _, item, len, ctx => collectEach item len ctx len []

variable {t : Ty}

theorem collectEach_eq (item : Decode (Value t)) (count : Nat) (ctx : Context) (len : Nat)
    (collected : List (Value t)) : collectEach item count ctx len collected =
      readEach item count ctx len >>= fun xs => pure (collected ++ xs.toList) := by
  induction len generalizing collected with
  | zero =>
      rw [collectEach, readEach, pure_bind]
      exact congrArg pure (List.append_nil _).symm
  | succ len ih =>
      have hrest (x : Value t) : collectEach item count ctx len (collected ++ [x]) =
          (readEach item count ctx len >>= fun xs => pure (Items.cons x xs)) >>= fun xs =>
            pure (collected ++ xs.toList) := by
        rw [ih, bind_assoc]
        simp only [pure_bind, Items.toList, List.append_assoc, List.singleton_append]
      rw [collectEach, readEach, bind_assoc]
      refine bind_congr fun before => ?_
      rw [bind_assoc]
      refine bind_congr fun x => ?_
      rw [bind_assoc]
      refine bind_congr fun after => ?_
      split
      · rw [bind_assoc]
        exact bind_congr fun _ => hrest x
      · exact hrest x

theorem collectBlock_eq (len : Nat) (ctx : Context) :
    collectBlock len ctx = readBlock len ctx >>= fun xs => pure xs.toList := by
  rw [collectBlock, readBlock, bind_assoc]
  refine bind_congr fun _ => ?_
  rw [bind_assoc]
  simp only [pure_bind, Items.toList_ofBlock]

theorem collectRun_eq (item : Decode (Value t)) (len : Nat) (ctx : Context) :
    collectRun t item len ctx = readRun t item len ctx >>= fun xs => pure xs.toList := by
  by_cases ht : t = .byte
  · subst ht
    exact collectBlock_eq len ctx
  · rw [readRun_of_ne ht, collectRun, collectEach_eq]
    · rfl
    · exact fun _ h _ => ht h

/-- A run that is read has as many items as it was asked for. -/
theorem length_of_collectRun {item : Decode (Value t)} {len : Nat} {ctx : Context} {input rest : Bytes}
    {xs : List (Value t)} (h : collectRun t item len ctx input = .ok (xs, rest)) : xs.length = len := by
  rw [collectRun_eq] at h
  obtain ⟨⟨ys, left⟩, -, ⟨⟩⟩ := bind_eq_ok.mp h
  exact ys.length_toList

end Decode

/-- An array is what its items are collected for and then made of. -/
theorem Ty.decode_array_collected {t : Ty} {n : Nat} (ctx : Context) :
    Ty.decode (.array t n) ctx = do
      let xs ← Decode.collectRun t (t.decode ctx.element) n ctx.element
      let ys ← Items.ofExactly n xs
      return .array ys := by
  rw [Ty.decode_array, Decode.collectRun_eq, bind_assoc]
  refine bind_congr fun xs => ?_
  rw [pure_bind, Items.ofExactly_toList]
  rfl

end CanonicalWire
