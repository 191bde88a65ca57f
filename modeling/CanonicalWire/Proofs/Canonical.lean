import CanonicalWire.Proofs.Listing
import CanonicalWire.Proofs.Runs

/-!
Only canonical bytes are accepted: whatever a value is decoded from is what it is encoded as. For a map
this needs that the entries are all kept when they are collected by key, and that writing them puts them
back in the order in which their bytes stood.
-/

namespace CanonicalWire

namespace Decode

theorem accepts_readVariant (union : String) (ctx : Context) :
    (readVariant union ctx).Accepts fun v taken => ∃ d, Encode.discriminantOf union v.payload ctx = .ok d ∧
      digitsLE prefixWidth d.toBitVec.toNat = taken := by
  rw [readVariant]
  split
  · exact .throw _
  · next m hm =>
      refine accepts_readDiscriminant.bind fun d taken htaken => ?_
      split
      · exact .throw _
      · next v hv =>
          refine .pure ⟨d, ?_, by rwa [List.append_nil]⟩
          have hd : m.discriminantOf v.payload = some d :=
            VariantMap.discriminantOf_eq_some_iff_variant.mpr ⟨v, hv, rfl⟩
          rw [Encode.discriminantOf, hm]
          simp only [hd]

end Decode

section Values

variable [Declarations]

/-- What a skipped field is restored to does not show. -/
theorem RecordKind.wire_restore {k : RecordKind} {name : String} {declared : Declaration} {t : Ty} {fs : Fields}
    (skipped : declared.skips = true) (xs : Record fs) (container : Option String) (ctx : Context) (b : Bytes) :
    (k.restore skipped xs : Record (.cons name declared t fs)).wire container ctx = .ok b ↔
      xs.wire container ctx = .ok b := by
  unfold restore
  split
  · rw [Record.wire_cons, if_pos skipped]
  · simp [Record.wire_omitted, skipped]

theorem Fields.accepts_decodeWith {self : DecodeRecursive} (k : RecordKind) : (fs : Fields) → (ctx : Context) →
    (∀ t ∈ fs.types, ∀ ctx, (t.decodeWith self ctx).Canonical ctx) →
      (fs.decodeWith self k ctx).Accepts fun xs taken => xs.wire k.container ctx = .ok taken
  | .nil, _, _ => .pure rfl
  | .cons _ declared t rest, ctx, h => by
      obtain ⟨ht, hrest⟩ := List.forall_mem_cons.mp h
      have hxs := rest.accepts_decodeWith k ctx hrest
      rw [Fields.decodeWith]
      split
      · next skipped => exact .map (hxs.mono fun xs taken => (RecordKind.wire_restore skipped xs _ ctx taken).mpr)
      · next hskip =>
          refine .lift_bind fun fieldCtx hctx => (ht fieldCtx).bind fun x u hu => .map (hxs.mono fun xs v hv => ?_)
          rw [Record.wire_cons, if_neg hskip]
          exact ⟨fieldCtx, u, v, hctx, hu, hv, rfl⟩

theorem Cases.accepts_decodeWith {self : DecodeRecursive} (union : String) (payload : Ty) : (cs : Cases) →
    (ctx : Context) → (∀ t ∈ cs.types, ∀ ctx, (t.decodeWith self ctx).Canonical ctx) →
      (cs.decodeWith self union payload ctx).Accepts fun c taken =>
        c.payload = payload ∧ c.value.wire ctx = .ok taken
  | .nil, _, _ => .throw _
  | .cons _ t rest, ctx, h => by
      obtain ⟨ht, hrest⟩ := List.forall_mem_cons.mp h
      rw [Cases.decodeWith]
      split
      · next heq => exact .map ((ht ctx).mono fun x taken hx => ⟨heq, hx⟩)
      · exact .map (rest.accepts_decodeWith union payload ctx hrest)

variable [LawfulKeys]

/-- No two of several values compare as equal if no two are written alike. -/
theorem Wires.pairwise_compare_ne {t : Ty} {ctx : Context} {xs : List (Value t)} {bs : List Bytes}
    (h : Wires ctx xs bs) (hbs : bs.Nodup) : xs.Pairwise fun x y => x.compare y ≠ .eq := by
  induction h with
  | nil => exact .nil
  | @cons x b xs bs hx hxs ih =>
      obtain ⟨hb, hbs⟩ := List.nodup_cons.mp hbs
      refine List.pairwise_cons.mpr ⟨fun y hy heq => hb ?_, ih hbs⟩
      obtain ⟨c, hc, hwire⟩ := Wires.exists_of_mem hxs hy
      rwa [Value.writtenAlike_of_compare heq ctx b c hx hwire]

namespace Value

theorem wire_map_list {l : Listing} {k v : Ty} {es : Entries k v} {ps : List (Bytes × Bytes)} {ctx : Context}
    {u : Bytes} (hps : EntryWires ctx.element es.toList ps) (hascending : Ascending (ps.map (·.1)))
    (hu : (Encode.writeLen ps.length).bytes = .ok u) :
    (map (es.list l) : Value (.map l k v)).wire ctx = .ok (u ++ ps.flatMap fun p => p.1 ++ p.2) := by
  have hne := List.pairwise_map.mp (hps.keys.pairwise_compare_ne hascending.nodup)
  obtain ⟨qs, hqs, hqp⟩ := hps.perm (Entries.perm_list hne l)
  exact wire_map.mpr ⟨qs, u, hqs, by rwa [hqp.length_eq], by rw [sortByKey_eq hqp hascending]⟩

theorem wire_setOf {l : Listing} {t : Ty} {xs : List (Value t)} {bs : List Bytes} {ctx : Context} {u : Bytes}
    (hbs : Wires ctx.element xs bs) (hascending : Ascending bs) (hu : (Encode.writeLen xs.length).bytes = .ok u) :
    (setOf xs l).wire ctx = .ok (u ++ bs.flatten) := by
  rw [hbs.length_eq] at hu
  obtain ⟨cs, hcs, hcb⟩ := hbs.perm (Items.perm_list (hbs.pairwise_compare_ne hascending.nodup) l)
  refine wire_set.mpr ⟨cs, u, ?_, by rwa [hcb.length_eq], by rw [sortBytes_eq hcb hascending]⟩
  rwa [Items.toList_ofList]

end Value

theorem Ty.canonical_decodeWith {self : DecodeRecursive} (hself : ∀ r ctx, (self r ctx).Canonical ctx) (t : Ty)
    (ctx : Context) : (t.decodeWith self ctx).Canonical ctx := by
  induction t generalizing ctx with
  | scalar s => exact .map (s.accepts_decode ctx)
  | option t ih =>
      rw [Ty.decodeWith]
      split
      · next hoptional =>
          refine Decode.accepts_readBool.bind fun b taken htaken => ?_
          subst htaken
          split
          · refine .map ((ih ctx.present).mono fun x c hx => ?_)
            rw [Value.wire_present, if_pos hoptional]
            exact ⟨c, hx, rfl⟩
          · exact .pure (Value.wire_absent.mpr ⟨hoptional, rfl⟩)
      · next hoptional =>
          refine .map ((ih ctx).mono fun x c hx => ?_)
          rw [Value.wire_present, if_neg hoptional]
          exact hx
  | pointer p t ih => exact .map (ih ctx)
  | sequence k t ih =>
      refine (Decode.accepts_readCount ctx).bind fun len u hu => .map ?_
      exact (Decode.accepts_readRun (ih ctx.element) len).mono fun xs v hv =>
        Value.wire_sequence.mpr ⟨u, v, hu, hv, rfl⟩
  | deque t ih =>
      refine (Decode.accepts_readCount ctx).bind fun len u hu => .map ?_
      refine (Decode.accepts_readRun (ih ctx.element) len).mono fun xs v hv => ?_
      obtain ⟨hbyte, bs, hbs, rfl⟩ := Items.wire_eq_ok.mp hv
      refine Value.wire_deque.mpr ⟨fun ht => ⟨hbyte ht, Nat.zero_le _⟩, u, bs, hu, ?_, rfl⟩
      rwa [Items.toList, List.append_nil]
  | array t n ih => exact .map (Decode.accepts_readRun (ih ctx.element) n)
  | map l k v ihk ihv =>
      refine .map (Decode.accepts_readLen.bind fun len u hu => ?_)
      refine (Decode.accepts_readEntries (ihk ctx.element) (ihv ctx.element) len 0 none).mono ?_
      rintro es _ ⟨ps, hps, hascending, rfl, rfl⟩
      exact Value.wire_map_list hps hascending hu
  | set l t ih =>
      refine .map (Decode.accepts_readLen.bind fun len u hu => .map ?_)
      refine (Decode.accepts_readSet (ih ctx.element) len 0 none).mono ?_
      rintro xs _ ⟨bs, hbs, hascending, rfl⟩
      exact Value.wire_setOf hbs hascending (xs.length_toList.symm ▸ hu)
  | record k fs ih => exact .map (fs.accepts_decodeWith k ctx ih)
  | union name cs ih =>
      refine (Decode.accepts_readVariant name ctx).bind ?_
      rintro variant _ ⟨d, hd, rfl⟩
      refine .map ((cs.accepts_decodeWith name variant.payload ctx.bare ih).mono ?_)
      rintro c v ⟨hpayload, hv⟩
      exact Value.wire_union.mpr ⟨d, v, hpayload ▸ hd, hv, rfl⟩
  | recursive r => exact .map (hself r ctx)

theorem Ty.canonical_decodeBelow (bound : Nat) (t : Ty) (ctx : Context) :
    (t.decodeBelow bound ctx).Canonical ctx := by
  induction bound using Nat.strongRecOn generalizing t ctx with
  | ind bound ih =>
      -- the type is taken apart once; a recursive body inside is decoded from fewer bytes
      rw [Ty.decodeBelow]
      refine t.canonical_decodeWith (fun r ctx input x rest h => ?_) ctx
      split at h
      · next hlt => exact ih input.length hlt r.body ctx input x rest h
      · cases h

theorem Ty.canonical_decode (t : Ty) (ctx : Context) : (t.decode ctx).Canonical ctx :=
  fun input => t.canonical_decodeBelow (input.length + 1) ctx input

/-- Bytes are accepted only as the encoding of the value that they are decoded to. So no two byte strings
are accepted as the same value, nor as values that are relisted. -/
theorem Ty.decode_canonical (t : Ty) (ctx : Context) :
    (∀ input x rest, t.decode ctx input = .ok (x, rest) →
      ∃ taken, input = taken ++ rest ∧ (x.encode ctx).bytes = .ok taken) ∧
    ∀ input input' x y rest rest', t.decode ctx input = .ok (x, rest) → t.decode ctx input' = .ok (y, rest') →
      x = y ∨ x.Relisted y ctx → ∃ taken, input = taken ++ rest ∧ input' = taken ++ rest' := by
  refine ⟨t.canonical_decode ctx, fun input input' x y rest rest' hx hy hxy => ?_⟩
  obtain ⟨taken, rfl, hwire⟩ := t.canonical_decode ctx input x rest hx
  obtain ⟨taken', rfl, hwire'⟩ := t.canonical_decode ctx input' y rest' hy
  have hsame : x.SameWire y ctx := by
    rcases hxy with rfl | h
    · exact fun b => Iff.rfl
    · exact x.sameWire_of_relisted y ctx h
  rw [hsame, hwire'] at hwire
  cases hwire
  exact ⟨taken, rfl, rfl⟩

end Values

section Words

def word (n : Nat) : Value .u16 := .scalar (s := .int .u16) (BitVec.ofNat 16 n)

/-- A map that lists 1 before 256. -/
def wordMap : Value (.map .byKey .u16 .u8) :=
  .map (.cons (word 1) (.ofByte 8) (.cons (word 256) (.ofByte 7) .nil))

/-- In the order of bytes 256 comes before 1. -/
theorem Ty.decode_canonical_words :
    Ty.decode _ (.start .empty) [2, 0, 0, 0, 0, 1, 7, 1, 0, 8, 9] = .ok (wordMap, [9]) ∧
      (wordMap.encode (.start .empty)).bytes = .ok [2, 0, 0, 0, 0, 1, 7, 1, 0, 8] := by
  have h : Ty.decode _ (.start .empty) [2, 0, 0, 0, 0, 1, 7, 1, 0, 8, 9] = .ok (wordMap, [9]) := by cbv
  obtain ⟨taken, hinput, htaken⟩ := (decode_canonical _ _).1 _ _ _ h
  have heq : taken = [2, 0, 0, 0, 0, 1, 7, 1, 0, 8] := List.append_cancel_right (hinput.symm.trans rfl)
  exact ⟨h, heq ▸ htaken⟩

end Words

end CanonicalWire
