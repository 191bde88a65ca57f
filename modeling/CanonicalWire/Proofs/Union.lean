import CanonicalWire.Catalogue
import CanonicalWire.Proofs.RoundTrip
import CanonicalWire.Proofs.Suffix

/-!
Unions. A discriminant stands for a payload type, not for a case, so of the cases with one payload type only
the first is ever read.
-/

namespace CanonicalWire
namespace Choice

variable [Declarations]

/-- First cases are told apart by their payload type. -/
theorem eq_of_isFirst : {cs : Cases} → {c d : Choice cs} → c.IsFirst → d.IsFirst → (heq : d.payload = c.payload) →
    heq ▸ d.value = c.value → d = c
  | .cons .., .here _, .here _, _, _, _, hvalue => congrArg here hvalue
  | .cons .., .here _, .there _, _, hd, heq, _ => absurd heq.symm hd.1
  | .cons .., .there _, .here _, hc, _, heq, _ => absurd heq hc.1
  | .cons .., .there _, .there _, hc, hd, heq, hvalue => congrArg there (eq_of_isFirst hc.2 hd.2 heq hvalue)

theorem isFirst_of_nodup : {cs : Cases} → (c : Choice cs) → cs.types.Nodup → c.IsFirst
  | .cons .., .here _, _ => trivial
  | .cons .., .there c, h => by
      obtain ⟨hne, hrest⟩ := List.nodup_cons.mp h
      exact ⟨fun heq => hne (heq ▸ c.payload_mem_types), c.isFirst_of_nodup hrest⟩

end Choice

/-- A written case is read as the first one with its payload type, with the payload that was written. -/
theorem Value.decode_union [Declarations] {name : String} {cs : Cases} {c : Choice cs} {ctx : Context} {b : Bytes}
    (h : ((union c : Value (.union name cs)).encode ctx).bytes = .ok b)
    (hpayload : ∀ v, (c.value.encode ctx.bare).bytes = .ok v → c.payload.decode ctx.bare v = .ok (c.value, [])) :
    ∃ d : Choice cs, (∀ rest, Ty.decode (.union name cs) ctx (b ++ rest) = .ok (union d, rest)) ∧
      (∃ heq : d.payload = c.payload, heq ▸ d.value = c.value) ∧ d.IsFirst ∧ (d = c ↔ c.IsFirst) ∧
      (cs.types.Nodup → d = c) := by
  obtain ⟨n, v, hn, hv, rfl⟩ := wire_union.mp h
  obtain ⟨variant, hvariant, hregistered⟩ := Decode.reads_readVariant hn
  have hvalue := Ty.reads_decode (hpayload v hv)
  rw [Ty.decode_eq] at hvalue
  have hcase := Cases.judges name (Q := (· = c.value)) (.of_reads hvalue rfl) cs c.payload_mem_types
  obtain ⟨d, hd, hsame, hfirst⟩ := hcase.1 trivial
  have hiff : d = c ↔ c.IsFirst :=
    ⟨fun heq => heq ▸ hfirst, fun hc => Choice.eq_of_isFirst hc hfirst hsame.1 hsame.2⟩
  refine ⟨d, fun rest => ?_, hsame, hfirst, hiff, fun hnodup => hiff.mpr (c.isFirst_of_nodup hnodup)⟩
  rw [← hregistered] at hd
  rw [Ty.decode_eq, Ty.decodeWith]
  exact hvariant.bind (f := fun variant => cs.decodeWith decodeBody name variant.payload ctx.bare >>= fun d =>
    pure (Value.union d)) (hd.map _) rest

section Twins

def firstTwin (b : UInt8) : Value Catalogue.twin := .union (.here (.ofByte b))

def secondTwin (b : UInt8) : Value Catalogue.twin := .union (.there (.here (.ofByte b)))

def twinGroup : VariantMap := ((VariantMap.empty "T").add ⟨"T", 3, .u8⟩ rfl rfl).add ⟨"T", 1, .u16⟩ rfl rfl

def twinContext : Context where
  registry := Registry.empty.add ((Container.empty "Pair").withGroup twinGroup)
  variants := some twinGroup

/-- What is written as the second twin is read as the first. -/
theorem Value.decode_union_twins :
    Registry.empty.register "Pair" [⟨"T", 3, .u8⟩, ⟨"T", 1, .u16⟩] = .ok twinContext.registry ∧
      (Context.start twinContext.registry).field (some "Pair") { enumGroup := some "T" } = .ok twinContext ∧
      ((secondTwin 5).encode twinContext).bytes = .ok [3, 0, 0, 0, 5] ∧
      Catalogue.twin.decode twinContext [3, 0, 0, 0, 5] = .ok (firstTwin 5, []) ∧
      firstTwin 5 ≠ secondTwin 5 := by
  have hbytes : ((secondTwin 5).encode twinContext).bytes = .ok [3, 0, 0, 0, 5] := by cbv
  have hdecode : Catalogue.twin.decode twinContext [3, 0, 0, 0, 5] = .ok (firstTwin 5, []) := by cbv
  have hpayload : ∀ v, ((Value.ofByte 5).encode twinContext.bare).bytes = .ok v →
      Ty.u8.decode twinContext.bare v = .ok (.ofByte 5, []) := by
    rintro _ ⟨⟩
    cbv
  obtain ⟨d, hd, -, -, hiff, -⟩ := decode_union (c := .there (.here (.ofByte 5))) hbytes hpayload
  cases (hd []).symm.trans hdecode
  exact ⟨rfl, rfl, hbytes, hdecode, fun heq => (hiff.mp (Value.union.inj heq)).1 rfl⟩

end Twins

end CanonicalWire
