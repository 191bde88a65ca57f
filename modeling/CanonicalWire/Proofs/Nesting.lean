import CanonicalWire.Proofs.Recursion

/-!
How deep decoding goes. A type that contains itself is entered again only after a byte has been taken, so entries
that are made one inside the other shrink the input, and there are no more of them than bytes and one.
-/

namespace CanonicalWire

variable [Declarations]

/-! ### Entries one inside the other -/

/-- An entry into a type that contains itself: its context and the bytes that remain. -/
structure Level where
  type : Recursive
  ctx : Context
  input : Bytes
deriving DecidableEq

namespace Level

/-- What decoding gives at a level. -/
def result (l : Level) : Except CodecError (Value l.type.body × Bytes) := decodeBody l.type l.ctx l.input

/-- What decoding gives at a level if types that contain themselves are decoded by the given function. -/
def resultWith (l : Level) (self : DecodeRecursive) : Except CodecError (Value l.type.body × Bytes) :=
  l.type.body.decodeWith self l.ctx l.input

/-- Types that contain themselves are decoded as ever, but this entry raises an error. -/
def raising (l : Level) (e : CodecError) : DecodeRecursive := fun r ctx input =>
  if (⟨r, ctx, input⟩ : Level) = l then .error e else decodeBody r ctx input

/-- Decoding at the outer level enters the inner one: an error that is raised there is what it ends with. -/
def Enters (outer inner : Level) : Prop := ∀ e, outer.resultWith (inner.raising e) = .error e

theorem resultWith_decodeBody (l : Level) : l.resultWith decodeBody = l.result :=
  (congrFun (l.type.body.decode_eq l.ctx) l.input).symm

/-- How entries are decoded of which no byte has been taken yet makes no difference. -/
theorem resultWith_congr (l : Level) {self : DecodeRecursive}
    (h : ∀ r ctx input, input.length < l.input.length → self r ctx input = decodeBody r ctx input) :
    l.resultWith self = l.result := by
  have halike (r : Recursive) (ctx : Context) :
      Decode.AlikeBelow l.input.length (self r ctx) (decodeBody r ctx) := fun input hlt => by
    rw [h r ctx input hlt]
    exact r.body.alike_decode_self ctx input hlt
  rw [← l.resultWith_decodeBody]
  exact (l.type.takes_body halike l.ctx l.input (Nat.lt_succ_self _)).1

/-- Before another level is entered a byte is taken. -/
theorem Enters.length_lt {outer inner : Level} (h : outer.Enters inner) :
    inner.input.length < outer.input.length := by
  by_contra hle
  have hsame (e : CodecError) : outer.resultWith (inner.raising e) = outer.result := by
    refine outer.resultWith_congr fun r ctx input hlt => if_neg ?_
    rintro rfl
    exact hle hlt
  -- an error that is raised at a level that is not entered does not show, so two of them make no difference
  have hfirst := (hsame (.trailingData 0)).symm.trans (h (.trailingData 0))
  have hsecond := (hsame (.trailingData 1)).symm.trans (h (.trailingData 1))
  cases hfirst.symm.trans hsecond

/-- Levels that are entered one inside the other are not more than the bytes and one. -/
theorem length_le_of_isChain {l : Level} {inner : List Level} (h : List.IsChain Enters (l :: inner)) :
    inner.length ≤ l.input.length := by
  induction inner generalizing l with
  | nil => exact Nat.zero_le _
  | cons m inner ih =>
      obtain ⟨hm, hinner⟩ := List.isChain_cons_cons.mp h
      exact Nat.lt_of_le_of_lt (ih hinner) hm.length_lt

end Level

/-- Types that contain themselves, entered at most `n` times one inside the other; what would be entered inside of
that is left to `bottom`. -/
def decodeAbove (bottom : DecodeRecursive) : Nat → DecodeRecursive
  | 0 => bottom
  | n + 1 => fun r ctx => r.body.decodeWith (decodeAbove bottom n) ctx

theorem alike_decodeAbove (bottom : DecodeRecursive) : (n : Nat) → (r : Recursive) → (ctx : Context) →
    Decode.AlikeBelow n (decodeAbove bottom n r ctx) (decodeBody r ctx)
  | 0, _, _ => fun _ hlt => absurd hlt (Nat.not_lt_zero _)
  | n + 1, r, ctx => by
      rw [decodeBody, Ty.decode_eq]
      exact (r.takes_body (alike_decodeAbove bottom n) ctx).alike

/-- The bottom is not reached on fewer than `n` bytes. -/
theorem Ty.decode_eq_above (bottom : DecodeRecursive) {n : Nat} (t : Ty) (ctx : Context) {input : Bytes}
    (hlt : input.length < n) : t.decode ctx input = t.decodeWith (decodeAbove bottom n) ctx input := by
  rw [Ty.decode_eq]
  exact (t.alike_decodeWith ctx (fun r _ => alike_decodeAbove bottom n r) input hlt).1.symm

end CanonicalWire
