import CanonicalWire.Proofs.Canonical
import CanonicalWire.Proofs.Width

/-!
Types that contain themselves. Decoding enters them only after it has taken at least one byte, so the bound
on the bytes that remain is never met, and decoding satisfies the equation that it would have without it.
-/

namespace CanonicalWire

theorem Fields.references_subset {t : Ty} : {fs : Fields} → t ∈ fs.types → t.references ⊆ fs.references
  | .cons _ _ u rest, h => by
      rcases List.mem_cons.mp h with rfl | h
      · exact List.subset_append_left _ _
      · exact List.subset_append_of_subset_right _ (references_subset h)

theorem Cases.references_subset {t : Ty} : {cs : Cases} → t ∈ cs.types → t.references ⊆ cs.references
  | .cons _ u rest, h => by
      rcases List.mem_cons.mp h with rfl | h
      · exact List.subset_append_left _ _
      · exact List.subset_append_of_subset_right _ (references_subset h)

namespace Decode

variable {α β : Type}

/-- On inputs of fewer than `n` bytes both actions do the same, and do not lengthen the input. -/
def AlikeBelow (n : Nat) (d e : Decode α) : Prop :=
  ∀ input, input.length < n → d input = e input ∧ ∀ a rest, d input = .ok (a, rest) → rest.length ≤ input.length

/-- The action takes at least one byte. -/
def TakesBytes (d : Decode α) : Prop := d.Accepts fun _ taken => taken ≠ []

/-- On inputs of fewer than `n` bytes both actions do the same, and take at least one byte. -/
def TakesBelow (n : Nat) (d e : Decode α) : Prop :=
  ∀ input, input.length < n → d input = e input ∧ ∀ a rest, d input = .ok (a, rest) → rest.length < input.length

theorem Accepts.length_le {d : Decode α} {Q : α → Bytes → Prop} (h : d.Accepts Q) {input rest : Bytes} {a : α}
    (hrun : d input = .ok (a, rest)) : rest.length ≤ input.length := by
  obtain ⟨taken, rfl, -⟩ := h input a rest hrun
  simp

theorem TakesBytes.length_lt {d : Decode α} (h : d.TakesBytes) {input rest : Bytes} {a : α}
    (hrun : d input = .ok (a, rest)) : rest.length < input.length := by
  obtain ⟨taken, rfl, hne⟩ := h input a rest hrun
  have hpos := List.length_pos_of_ne_nil hne
  rw [List.length_append]
  omega

namespace AlikeBelow

variable {n : Nat}

theorem of_accepts {d : Decode α} {Q : α → Bytes → Prop} (h : d.Accepts Q) : AlikeBelow n d d :=
  fun _ _ => ⟨rfl, fun _ _ => h.length_le⟩

theorem throw (e : CodecError) : AlikeBelow n (throw e : Decode α) (throw e) := fun _ _ => ⟨rfl, nofun⟩

theorem pure (a : α) : AlikeBelow n (pure a : Decode α) (Pure.pure a) :=
  of_accepts (Q := fun _ _ => True) (Accepts.pure trivial)

theorem get_bind {f g : Bytes → Decode β} (h : ∀ s, AlikeBelow n (f s) (g s)) :
    AlikeBelow n ((get : StateT Bytes (Except CodecError) Bytes) >>= f) (get >>= g) :=
  fun input => h input input

theorem lift_bind {e : Except CodecError α} {f g : α → Decode β} (h : ∀ a, e = .ok a → AlikeBelow n (f a) (g a)) :
    AlikeBelow n ((liftM e : StateT Bytes (Except CodecError) α) >>= f) (liftM e >>= g) := by
  cases e with
  | error e => exact throw e
  | ok a => exact h a rfl

theorem bind {d e : Decode α} {f g : α → Decode β} (hd : AlikeBelow n d e) (h : ∀ a, AlikeBelow n (f a) (g a)) :
    AlikeBelow n (d >>= f) (e >>= g) := by
  intro input hlt
  obtain ⟨heq, hle⟩ := hd input hlt
  rw [bind_apply, bind_apply, ← heq]
  cases hrun : d input with
  | error e => exact ⟨rfl, nofun⟩
  | ok r =>
      have hrest := hle r.1 r.2 hrun
      obtain ⟨heq', hle'⟩ := h r.1 r.2 (Nat.lt_of_le_of_lt hrest hlt)
      exact ⟨heq', fun b rest hb => Nat.le_trans (hle' b rest hb) hrest⟩

theorem map {d e : Decode α} (hd : AlikeBelow n d e) (g : α → β) :
    AlikeBelow n (d >>= fun a => Pure.pure (g a)) (e >>= fun a => Pure.pure (g a)) :=
  hd.bind fun a => pure (g a)

end AlikeBelow

namespace TakesBelow

variable {n : Nat}

theorem alike {d e : Decode α} (h : TakesBelow n d e) : AlikeBelow n d e := fun input hlt =>
  ⟨(h input hlt).1, fun a rest hrun => Nat.le_of_lt ((h input hlt).2 a rest hrun)⟩

theorem of_takesBytes {d : Decode α} (h : d.TakesBytes) : TakesBelow n d d :=
  fun _ _ => ⟨rfl, fun _ _ => h.length_lt⟩

theorem throw (e : CodecError) : TakesBelow n (throw e : Decode α) (throw e) := fun _ _ => ⟨rfl, nofun⟩

theorem get_bind {f g : Bytes → Decode β} (h : ∀ s, TakesBelow n (f s) (g s)) :
    TakesBelow n ((get : StateT Bytes (Except CodecError) Bytes) >>= f) (get >>= g) :=
  fun input => h input input

theorem lift_bind {e : Except CodecError α} {f g : α → Decode β} (h : ∀ a, e = .ok a → TakesBelow n (f a) (g a)) :
    TakesBelow n ((liftM e : StateT Bytes (Except CodecError) α) >>= f) (liftM e >>= g) := by
  cases e with
  | error e => exact throw e
  | ok a => exact h a rfl

/-- Once a byte is taken, what follows may be alike on shorter inputs only. -/
theorem bind {d e : Decode α} {f g : α → Decode β} (hd : TakesBelow (n + 1) d e)
    (h : ∀ a, AlikeBelow n (f a) (g a)) : TakesBelow (n + 1) (d >>= f) (e >>= g) := by
  intro input hlt
  obtain ⟨heq, hltRest⟩ := hd input hlt
  rw [bind_apply, bind_apply, ← heq]
  cases hrun : d input with
  | error e => exact ⟨rfl, nofun⟩
  | ok r =>
      have hrest := hltRest r.1 r.2 hrun
      obtain ⟨heq', hle⟩ := h r.1 r.2 (by omega)
      exact ⟨heq', fun b rest hb => Nat.lt_of_le_of_lt (hle b rest hb) hrest⟩

theorem bind_after {d e : Decode α} {f g : α → Decode β} (hd : AlikeBelow n d e)
    (h : ∀ a, TakesBelow n (f a) (g a)) : TakesBelow n (d >>= f) (e >>= g) := by
  intro input hlt
  obtain ⟨heq, hle⟩ := hd input hlt
  rw [bind_apply, bind_apply, ← heq]
  cases hrun : d input with
  | error e => exact ⟨rfl, nofun⟩
  | ok r =>
      have hrest := hle r.1 r.2 hrun
      obtain ⟨heq', hltRest⟩ := h r.1 r.2 (Nat.lt_of_le_of_lt hrest hlt)
      exact ⟨heq', fun b rest hb => Nat.lt_of_lt_of_le (hltRest b rest hb) hrest⟩

theorem map {d e : Decode α} (hd : TakesBelow n d e) (g : α → β) :
    TakesBelow n (d >>= fun a => Pure.pure (g a)) (e >>= fun a => Pure.pure (g a)) := by
  cases n with
  | zero => exact fun _ hlt => absurd hlt (Nat.not_lt_zero _)
  | succ n => exact hd.bind fun a => .pure (g a)

end TakesBelow

theorem takesBytes_readBool : readBool.TakesBytes := accepts_readBool.mono fun _ _ h => h ▸ List.cons_ne_nil _ _

theorem takesBytes_readLen : readLen.TakesBytes := accepts_readLen.mono fun len taken h => by
  obtain ⟨-, rfl⟩ := Encode.bytes_writeLen_eq_ok.mp h
  exact digitsLE_ne_nil (by decide) len

theorem takesBytes_readVariant (union : String) (ctx : Context) : (readVariant union ctx).TakesBytes := by
  refine (accepts_readVariant union ctx).mono ?_
  rintro _ _ ⟨d, -, rfl⟩
  exact digitsLE_ne_nil (by decide) _

section Loops

variable [Declarations] {n : Nat} {t : Ty} {item item' : Decode (Value t)}

theorem alike_readEach (h : AlikeBelow n item item') (count : Nat) (ctx : Context) : (len : Nat) →
    AlikeBelow n (readEach item count ctx len) (readEach item' count ctx len)
  | 0 => .pure _
  | len + 1 => by
      refine .get_bind fun before => h.bind fun x => .get_bind fun after => ?_
      have hrest := (alike_readEach h count ctx len).map (Items.cons x)
      split
      · exact .lift_bind fun _ _ => hrest
      · exact hrest

theorem alike_readRun (h : AlikeBelow n item item') (len : Nat) (ctx : Context) :
    AlikeBelow n (readRun t item len ctx) (readRun t item' len ctx) := by
  by_cases ht : t = .byte
  · subst ht
    exact .of_accepts (accepts_readBlock len ctx)
  · rw [readRun_of_ne ht, readRun_of_ne ht]
    exact alike_readEach h len ctx len

theorem alike_readKey (h : AlikeBelow n item item') (index : Nat) (previous : Option Bytes) :
    AlikeBelow n (readKey item index previous) (readKey item' index previous) := by
  refine .get_bind fun before => h.bind fun x => .get_bind fun after => ?_
  cases previous with
  | none => exact .pure _
  | some earlier =>
      simp only
      split
      · exact .pure _
      · exact .throw _

theorem alike_readSet (h : AlikeBelow n item item') : (len index : Nat) → (previous : Option Bytes) →
    AlikeBelow n (readSet item len index previous) (readSet item' len index previous)
  | 0, _, _ => .pure _
  | len + 1, index, previous => (alike_readKey h index previous).bind fun r =>
      (alike_readSet h len (index + 1) (some r.2)).map _

theorem alike_readEntries {v : Ty} {value value' : Decode (Value v)} (h : AlikeBelow n item item')
    (hvalue : AlikeBelow n value value') : (len index : Nat) → (previous : Option Bytes) →
      AlikeBelow n (readEntries item value len index previous) (readEntries item' value' len index previous)
  | 0, _, _ => .pure _
  | len + 1, index, previous => (alike_readKey h index previous).bind fun r => hvalue.bind fun _ =>
      (alike_readEntries h hvalue len (index + 1) (some r.2)).map _

/-- The first item takes a byte. -/
theorem takes_readEach (h : TakesBelow (n + 1) item item') (halike : AlikeBelow n item item') (count : Nat)
    (ctx : Context) {len : Nat} (hlen : 0 < len) :
    TakesBelow (n + 1) (readEach item count ctx len) (readEach item' count ctx len) := by
  cases len with
  | zero => exact absurd hlen (Nat.lt_irrefl 0)
  | succ len =>
      refine .get_bind fun before => h.bind fun x => .get_bind fun after => ?_
      have hrest := (alike_readEach halike count ctx len).map (Items.cons x)
      split
      · exact .lift_bind fun _ _ => hrest
      · exact hrest

theorem takesBytes_readBlock {len : Nat} (hlen : 0 < len) (ctx : Context) : (readBlock len ctx).TakesBytes := by
  refine .lift_bind fun _ _ => .map ((accepts_take len).mono ?_)
  rintro block _ rfl
  exact List.ne_nil_of_length_pos (block.length_eq.symm ▸ hlen)

theorem takes_readRun (h : TakesBelow (n + 1) item item') (halike : AlikeBelow n item item') (ctx : Context)
    {len : Nat} (hlen : 0 < len) : TakesBelow (n + 1) (readRun t item len ctx) (readRun t item' len ctx) := by
  by_cases ht : t = .byte
  · subst ht
    exact TakesBelow.of_takesBytes (d := readBlock len ctx) (takesBytes_readBlock hlen ctx)
  · rw [readRun_of_ne ht, readRun_of_ne ht]
    exact takes_readEach h halike len ctx hlen

end Loops

theorem takes_readCount_bind {n : Nat} {ctx : Context} {f g : Nat → Decode α}
    (hcounted : ∀ len, AlikeBelow n (f len) (g len))
    (hfixed : ∀ len, ctx.fixedLen = some len → TakesBelow (n + 1) (f len) (g len)) :
    TakesBelow (n + 1) (readCount ctx >>= f) (readCount ctx >>= g) := by
  rw [readCount]
  split
  · next len hlen => exact hfixed len hlen
  · exact (TakesBelow.of_takesBytes takesBytes_readLen).bind hcounted

end Decode

theorem Scalar.takesBytes_decode (s : Scalar) {ctx : Context} (h : s.takesBytes ctx.fixedLen = true) :
    (s.decode ctx).TakesBytes :=
  (s.accepts_decode ctx).mono fun _ _ hwire =>
    mt (Scalar.bytes_nil_iff hwire).mp (Scalar.not_weightless_of_takesBytes h)

section Values

variable [Declarations] {n : Nat} {self self' : DecodeRecursive}

theorem Fields.alike_decodeWith (k : RecordKind) : (fs : Fields) → (ctx : Context) →
    (∀ t ∈ fs.types, ∀ ctx, Decode.AlikeBelow n (t.decodeWith self ctx) (t.decodeWith self' ctx)) →
      Decode.AlikeBelow n (fs.decodeWith self k ctx) (fs.decodeWith self' k ctx)
  | .nil, _, _ => .pure _
  | .cons _ declared t rest, ctx, h => by
      obtain ⟨ht, hrest⟩ := List.forall_mem_cons.mp h
      have hxs := rest.alike_decodeWith k ctx hrest
      rw [Fields.decodeWith, Fields.decodeWith]
      split
      · exact hxs.map _
      · exact .lift_bind fun fieldCtx _ => (ht fieldCtx).bind fun x => hxs.map _

theorem Cases.alike_decodeWith (union : String) (payload : Ty) : (cs : Cases) → (ctx : Context) →
    (∀ t ∈ cs.types, ∀ ctx, Decode.AlikeBelow n (t.decodeWith self ctx) (t.decodeWith self' ctx)) →
      Decode.AlikeBelow n (cs.decodeWith self union payload ctx) (cs.decodeWith self' union payload ctx)
  | .nil, _, _ => .throw _
  | .cons _ t rest, ctx, h => by
      obtain ⟨ht, hrest⟩ := List.forall_mem_cons.mp h
      rw [Cases.decodeWith, Cases.decodeWith]
      split
      · exact (ht ctx).map _
      · exact (rest.alike_decodeWith union payload ctx hrest).map _

/-- Decoding a type follows the names that the type refers to. -/
theorem Ty.alike_decodeWith (t : Ty) (ctx : Context)
    (h : ∀ r ∈ t.references, ∀ ctx, Decode.AlikeBelow n (self r ctx) (self' r ctx)) :
    Decode.AlikeBelow n (t.decodeWith self ctx) (t.decodeWith self' ctx) := by
  induction t generalizing ctx with
  | scalar s => exact (Decode.AlikeBelow.of_accepts (s.accepts_decode ctx)).map _
  | option t ih =>
      rw [Ty.decodeWith, Ty.decodeWith]
      split
      · refine .bind (.of_accepts Decode.accepts_readBool) fun b => ?_
        split
        · exact (ih ctx.present h).map _
        · exact .pure _
      · exact (ih ctx h).map _
  | pointer p t ih => exact (ih ctx h).map _
  | sequence k t ih =>
      exact .bind (.of_accepts (Decode.accepts_readCount ctx)) fun len =>
        (Decode.alike_readRun (ih ctx.element h) len ctx.element).map _
  | deque t ih =>
      exact .bind (.of_accepts (Decode.accepts_readCount ctx)) fun len =>
        (Decode.alike_readRun (ih ctx.element h) len ctx.element).map _
  | array t m ih => exact (Decode.alike_readRun (ih ctx.element h) m ctx.element).map _
  | map l k v ihk ihv =>
      obtain ⟨hk, hv⟩ := List.forall_mem_append.mp h
      exact (Decode.AlikeBelow.bind (.of_accepts Decode.accepts_readLen) fun len =>
        Decode.alike_readEntries (ihk ctx.element hk) (ihv ctx.element hv) len 0 none).map _
  | set l t ih =>
      exact (Decode.AlikeBelow.bind (.of_accepts Decode.accepts_readLen) fun len =>
        (Decode.alike_readSet (ih ctx.element h) len 0 none).map _).map _
  | record k fs ih =>
      exact (fs.alike_decodeWith k ctx fun t ht ctx => ih t ht ctx fun r hr =>
        h r (Fields.references_subset ht hr)).map _
  | union name cs ih =>
      exact .bind (.of_accepts (Decode.accepts_readVariant name ctx)) fun variant =>
        (cs.alike_decodeWith name variant.payload ctx.bare fun t ht ctx => ih t ht ctx fun r hr =>
          h r (Cases.references_subset ht hr)).map _
  | recursive r => exact (h r (List.mem_singleton_self r) ctx).map _

/-! ### Bytes are taken before a name is followed -/

section Guarded

variable (h : ∀ r ctx, Decode.AlikeBelow n (self r ctx) (self' r ctx))
include h

theorem Fields.takes_decodeWith (k : RecordKind) : (fs : Fields) → (ctx : Context) →
    (∀ t ∈ fs.types, ∀ ctx : Context, t.guarded ctx.optional ctx.fixedLen = true →
      Decode.TakesBelow (n + 1) (t.decodeWith self ctx) (t.decodeWith self' ctx)) →
      fs.guarded = true → Decode.TakesBelow (n + 1) (fs.decodeWith self k ctx) (fs.decodeWith self' k ctx)
  | .cons _ (.faulty _) _ _, _, _, _ => .throw _
  | .cons _ (.valid d) t rest, ctx, ih, hguarded => by
      obtain ⟨iht, ihrest⟩ := List.forall_mem_cons.mp ih
      rw [guarded] at hguarded
      rw [Fields.decodeWith, Fields.decodeWith]
      split at hguarded
      · next hskip =>
          have hskips : (Declaration.valid d).skips = true := hskip
          rw [dif_pos hskips, dif_pos hskips]
          exact (rest.takes_decodeWith k ctx ihrest hguarded).map _
      · next hskip =>
          have hskips : ¬(Declaration.valid d).skips = true := hskip
          rw [dif_neg hskips, dif_neg hskips]
          refine .lift_bind fun fieldCtx henter => ?_
          obtain ⟨hoptional, hfixed⟩ := Declaration.directives_enter henter
          simp only [Bool.or_eq_true, Bool.and_eq_true, List.isEmpty_iff] at hguarded
          rcases hguarded with ht | ⟨hreferences, hrest⟩
          · refine (iht fieldCtx (by rwa [hoptional, hfixed])).bind fun x => ?_
            exact (rest.alike_decodeWith k ctx fun t _ ctx => t.alike_decodeWith ctx fun r _ => h r).map _
          · -- no name is followed in the field, so all goes well up to the next one
            refine .bind_after (t.alike_decodeWith fieldCtx (by simp [hreferences])) fun x => ?_
            exact (rest.takes_decodeWith k ctx ihrest hrest).map _

theorem Ty.takes_decodeWith (t : Ty) (ctx : Context) (hguarded : t.guarded ctx.optional ctx.fixedLen = true) :
    Decode.TakesBelow (n + 1) (t.decodeWith self ctx) (t.decodeWith self' ctx) := by
  have halike (t : Ty) (ctx : Context) : Decode.AlikeBelow n (t.decodeWith self ctx) (t.decodeWith self' ctx) :=
    t.alike_decodeWith ctx fun r _ => h r
  induction t generalizing ctx with
  | scalar s =>
      exact (Decode.TakesBelow.of_takesBytes (s.takesBytes_decode hguarded)).map _
  | option t ih =>
      rw [Ty.decodeWith, Ty.decodeWith]
      split
      · refine (Decode.TakesBelow.of_takesBytes Decode.takesBytes_readBool).bind fun b => ?_
        split
        · exact (halike t ctx.present).map _
        · exact .pure _
      · next hoptional => exact (ih ctx (by simpa [guarded, hoptional] using hguarded)).map _
  | pointer p t ih => exact (ih ctx hguarded).map _
  | sequence k t ih | deque t ih =>
      have hrun (len : Nat) := Decode.alike_readRun (halike t ctx.element) len ctx.element
      refine Decode.takes_readCount_bind (fun len => (hrun len).map _) fun len hfixed => ?_
      simp only [guarded, hfixed, Option.all_some, Bool.and_eq_true, decide_eq_true_eq] at hguarded
      exact (Decode.takes_readRun (ih ctx.element hguarded.2) (halike t _) ctx.element hguarded.1).map _
  | array t m ih =>
      simp only [guarded, Bool.and_eq_true, decide_eq_true_eq] at hguarded
      exact (Decode.takes_readRun (ih ctx.element hguarded.2) (halike t _) ctx.element hguarded.1).map _
  | map l k v =>
      exact ((Decode.TakesBelow.of_takesBytes Decode.takesBytes_readLen).bind fun len =>
        Decode.alike_readEntries (halike k ctx.element) (halike v ctx.element) len 0 none).map _
  | set l t =>
      exact ((Decode.TakesBelow.of_takesBytes Decode.takesBytes_readLen).bind fun len =>
        (Decode.alike_readSet (halike t ctx.element) len 0 none).map _).map _
  | record k fs ih => exact (fs.takes_decodeWith h k ctx ih hguarded).map _
  | union name cs =>
      exact (Decode.TakesBelow.of_takesBytes (Decode.takesBytes_readVariant name ctx)).bind fun variant =>
        (cs.alike_decodeWith name variant.payload ctx.bare fun t _ => halike t).map _
  | recursive r => cases hguarded

theorem Recursive.takes_body (r : Recursive) (ctx : Context) :
    Decode.TakesBelow (n + 1) (r.body.decodeWith self ctx) (r.body.decodeWith self' ctx) :=
  r.body.takes_decodeWith h ctx (r.guarded_body _ _)

end Guarded

/-! ### The recursive equation -/

/-- Types that contain themselves, decoded as whole values are. -/
def decodeBody : DecodeRecursive := fun r ctx => r.body.decode ctx

theorem Ty.alike_decodeBelow_self (bound : Nat) (t : Ty) (ctx : Context) :
    Decode.AlikeBelow n (t.decodeBelow bound ctx) (t.decodeBelow bound ctx) := by
  induction bound using Nat.strongRecOn generalizing n t ctx with
  | ind bound ih =>
      rw [Ty.decodeBelow]
      refine t.alike_decodeWith ctx fun r _ ctx input hlt => ⟨rfl, fun x rest hrun => ?_⟩
      split at hrun
      · next hbound => exact (ih input.length hbound r.body ctx input hlt).2 x rest hrun
      · cases hrun

theorem Ty.alike_decode_self (t : Ty) (ctx : Context) : Decode.AlikeBelow n (t.decode ctx) (t.decode ctx) :=
  fun input => t.alike_decodeBelow_self (input.length + 1) ctx input

theorem Ty.alike_decodeBelow (t : Ty) (ctx : Context) :
    Decode.AlikeBelow (n + 1) (t.decodeBelow (n + 1) ctx) (t.decodeWith decodeBody ctx) := by
  rw [Ty.decodeBelow]
  refine t.alike_decodeWith ctx fun r _ ctx input hlt => ?_
  rw [if_pos hlt]
  -- one more byte of room is not used, for a byte has been taken before the next name is followed
  have hbody : Decode.TakesBelow (input.length + 1) (r.body.decodeBelow input.length ctx)
      (r.body.decodeBelow (input.length + 1) ctx) := by
    rw [Ty.decodeBelow, Ty.decodeBelow]
    refine r.takes_body (fun r ctx inner hinner => ?_) ctx
    rw [if_pos hinner, if_pos (Nat.lt_succ_of_lt hinner)]
    exact r.body.alike_decodeBelow_self inner.length ctx inner hinner
  exact hbody.alike input (Nat.lt_succ_self _)

/-- Decoding satisfies its recursive equation. -/
theorem Ty.decode_eq (t : Ty) (ctx : Context) : t.decode ctx = t.decodeWith decodeBody ctx :=
  funext fun input => (t.alike_decodeBelow ctx input (Nat.lt_succ_self _)).1

theorem Ty.decode_map {l : Listing} {k v : Ty} (ctx : Context) :
    Ty.decode (.map l k v) ctx = do
      let es ← Decode.readMap (k.decode ctx.element) (v.decode ctx.element)
      return .map (es.list l) := by
  rw [k.decode_eq, v.decode_eq, Ty.decode_eq]
  rfl

theorem Ty.decode_set {l : Listing} {t : Ty} (ctx : Context) :
    Ty.decode (.set l t) ctx = do
      let xs ← Decode.readItems (t.decode ctx.element)
      return .setOf xs l := by
  rw [t.decode_eq, Ty.decode_eq]
  rfl

theorem Ty.decode_sequence {s : SequenceKind} {t : Ty} (ctx : Context) :
    Ty.decode (.sequence s t) ctx = do
      let len ← Decode.readCount ctx
      let xs ← Decode.readRun t (t.decode ctx.element) len ctx.element
      return .sequence xs := by
  rw [t.decode_eq, Ty.decode_eq]
  rfl

theorem Ty.decode_deque {t : Ty} (ctx : Context) :
    Ty.decode (.deque t) ctx = do
      let len ← Decode.readCount ctx
      let xs ← Decode.readRun t (t.decode ctx.element) len ctx.element
      return .deque xs .nil := by
  rw [t.decode_eq, Ty.decode_eq]
  rfl

theorem Ty.decode_array {t : Ty} {n : Nat} (ctx : Context) :
    Ty.decode (.array t n) ctx = do
      let xs ← Decode.readRun t (t.decode ctx.element) n ctx.element
      return .array xs := by
  rw [t.decode_eq, Ty.decode_eq]
  rfl

/-! ### Bounded nesting -/

/-- Types that contain themselves, entered at most `n` times one inside the other. -/
def decodeNested : Nat → DecodeRecursive
  | 0, r, _ => throw (.unsupportedShape (.endless r.name))
  | n + 1, r, ctx => r.body.decodeWith (decodeNested n) ctx

theorem alike_decodeNested : (n : Nat) → (r : Recursive) → (ctx : Context) →
    Decode.AlikeBelow n (decodeNested n r ctx) (decodeBody r ctx)
  | 0, _, _ => fun _ hlt => absurd hlt (Nat.not_lt_zero _)
  | n + 1, r, ctx => by
      rw [decodeNested, decodeBody, Ty.decode_eq]
      exact (r.takes_body (alike_decodeNested n) ctx).alike

/-- Fewer than `n` bytes are decoded within `n` entries, so what holds of decoding to any depth of nesting
holds of decoding. -/
theorem Ty.decode_eq_nested {n : Nat} (t : Ty) (ctx : Context) {input : Bytes} (hlt : input.length < n) :
    t.decode ctx input = t.decodeWith (decodeNested n) ctx input := by
  rw [Ty.decode_eq]
  exact (t.alike_decodeWith ctx (fun r _ => alike_decodeNested n r) input hlt).1.symm

theorem Ty.accepts_decode_of_nested {t : Ty} {ctx : Context} {Q : Value t → Bytes → Prop}
    (h : ∀ n, (t.decodeWith (decodeNested n) ctx).Accepts Q) : (t.decode ctx).Accepts Q := by
  intro input x rest hrun
  rw [t.decode_eq_nested ctx (Nat.lt_succ_self _)] at hrun
  exact h _ input x rest hrun

end Values

end CanonicalWire
