import CanonicalWire.Proofs.Recursion

/-!
What does not depend on the order of keys. However the keys of maps and the items of sets are compared, the same
bytes are taken and the same errors reported; only what maps and sets come back as may differ. So what is known of
the bytes that are taken in the derived order is known of them in any order.
-/

namespace CanonicalWire

namespace Decode

variable {α β γ δ : Type}

/-- The same error, or related results with the same bytes left. -/
inductive SameOutcome (R : α → β → Prop) : Except CodecError (α × Bytes) → Except CodecError (β × Bytes) → Prop where
  | ok {a : α} {b : β} (rest : Bytes) (h : R a b) : SameOutcome R (.ok (a, rest)) (.ok (b, rest))
  | error (e : CodecError) : SameOutcome R (.error e) (.error e)

/-- On every input both actions end alike. -/
def Agree (R : α → β → Prop) (d : Decode α) (e : Decode β) : Prop := ∀ input, SameOutcome R (d input) (e input)

/-- Both actions take the same bytes and report the same errors. -/
def SameCourse (d : Decode α) (e : Decode β) : Prop := Agree (fun _ _ => True) d e

namespace Agree

variable {R : α → β → Prop} {S : γ → δ → Prop} {d : Decode α} {e : Decode β}

theorem pure {a : α} {b : β} (h : R a b) : Agree R (pure a) (Pure.pure b) := fun input => .ok input h

theorem throw (e : CodecError) : Agree R (throw e) (throw e) := fun _ => .error e

theorem get_bind {f : Bytes → Decode γ} {g : Bytes → Decode δ} (h : ∀ s, Agree S (f s) (g s)) :
    Agree S ((get : StateT Bytes (Except CodecError) Bytes) >>= f) (get >>= g) := fun input => h input input

theorem lift_bind {r : Except CodecError α} {f : α → Decode γ} {g : α → Decode δ} (h : ∀ a, Agree S (f a) (g a)) :
    Agree S ((liftM r : StateT Bytes (Except CodecError) α) >>= f) (liftM r >>= g) := by
  cases r with
  | error e => exact throw e
  | ok a => exact h a

theorem bind {f : α → Decode γ} {g : β → Decode δ} (h : Agree R d e) (hf : ∀ a b, R a b → Agree S (f a) (g b)) :
    Agree S (d >>= f) (e >>= g) := by
  intro input
  rw [bind_apply, bind_apply]
  have hrun := h input
  generalize d input = r, e input = s at hrun
  cases hrun with
  | ok rest hab => exact hf _ _ hab rest
  | error e => exact .error e

end Agree

namespace SameCourse

variable {d : Decode α} {e : Decode β}

theorem refl (d : Decode α) : SameCourse d d := by
  intro input
  cases d input with
  | error e => exact .error e
  | ok r => exact .ok r.2 trivial

theorem bind {f : α → Decode γ} {g : β → Decode δ} (h : SameCourse d e) (hf : ∀ a b, SameCourse (f a) (g b)) :
    SameCourse (d >>= f) (e >>= g) :=
  Agree.bind h fun a b _ => hf a b

/-- The same action comes first. -/
theorem after {f : α → Decode γ} {g : α → Decode δ} (h : ∀ a, SameCourse (f a) (g a)) :
    SameCourse (d >>= f) (d >>= g) := by
  intro input
  rw [bind_apply, bind_apply]
  cases d input with
  | error e => exact .error e
  | ok r => exact h r.1 r.2

theorem map (h : SameCourse d e) (f : α → γ) (g : β → δ) :
    SameCourse (d >>= fun a => pure (f a)) (e >>= fun b => pure (g b)) :=
  h.bind fun _ _ => Agree.pure trivial

theorem exists_ok_iff (h : SameCourse d e) {input rest : Bytes} :
    (∃ a, d input = .ok (a, rest)) ↔ ∃ b, e input = .ok (b, rest) := by
  have hrun := h input
  generalize d input = r, e input = s at hrun
  cases hrun with
  | ok left =>
      constructor <;>
      · rintro ⟨_, ⟨⟩⟩
        exact ⟨_, rfl⟩
  | error e => exact ⟨nofun, nofun⟩

theorem accepts {Q : Bytes → Prop} (h : SameCourse d e) (he : e.Accepts fun _ taken => Q taken) :
    d.Accepts fun _ taken => Q taken := by
  intro input a rest hrun
  obtain ⟨b, hb⟩ := h.exists_ok_iff.mp ⟨a, hrun⟩
  exact he input b rest hb

end SameCourse

section Loops

variable [Definitions] {t v : Ty} {item item' : Decode (Value t)} {value value' : Decode (Value v)}

theorem sameCourse_readEach (h : SameCourse item item') (count : Nat) (ctx : Context) : (len : Nat) →
    SameCourse (readEach item count ctx len) (readEach item' count ctx len)
  | 0 => .refl _
  | len + 1 => by
      refine Agree.get_bind fun before => h.bind fun x y => Agree.get_bind fun after => ?_
      have hrest := (sameCourse_readEach h count ctx len).map (Items.cons x) (Items.cons y)
      split
      · exact Agree.lift_bind fun _ => hrest
      · exact hrest

theorem sameCourse_readRun (h : SameCourse item item') (len : Nat) (ctx : Context) :
    SameCourse (readRun t item len ctx) (readRun t item' len ctx) := by
  by_cases ht : t = .byte
  · subst ht
    exact .refl (readBlock len ctx)
  · rw [readRun_of_ne ht, readRun_of_ne ht]
    exact sameCourse_readEach h len ctx len

/-- The bytes of the keys are the same. -/
theorem agree_readKey (h : SameCourse item item') (index : Nat) (previous : Option Bytes) :
    Agree (fun a b => a.2 = b.2) (readKey item index previous) (readKey item' index previous) := by
  refine .get_bind fun before => Agree.bind h fun x y _ => .get_bind fun after => ?_
  cases previous with
  | none => exact .pure rfl
  | some earlier =>
      simp only
      split
      · exact .pure rfl
      · exact .throw _

theorem sameCourse_readSet (h : SameCourse item item') : (len index : Nat) → (previous : Option Bytes) →
    SameCourse (readSet item len index previous) (readSet item' len index previous)
  | 0, _, _ => .refl _
  | len + 1, index, previous => by
      refine (agree_readKey h index previous).bind ?_
      rintro ⟨x, b⟩ ⟨y, _⟩ rfl
      exact (sameCourse_readSet h len (index + 1) (some b)).map _ _

theorem sameCourse_readEntries (h : SameCourse item item') (hvalue : SameCourse value value') :
    (len index : Nat) → (previous : Option Bytes) →
      SameCourse (readEntries item value len index previous) (readEntries item' value' len index previous)
  | 0, _, _ => .refl _
  | len + 1, index, previous => by
      refine (agree_readKey h index previous).bind ?_
      rintro ⟨x, b⟩ ⟨y, _⟩ rfl
      exact hvalue.bind fun _ _ => (sameCourse_readEntries h hvalue len (index + 1) (some b)).map _ _

end Loops

end Decode

/-! ### Any order and the derived one -/

variable [Declarations]

/-- The same declarations, but keys are compared in their derived order. -/
@[reducible] def Declarations.derived : Declarations where
  default? := Declarations.default?
  compare := Value.lexCompare

theorem Declarations.lawfulKeys_derived : @LawfulKeys derived :=
  letI := derived
  .of_lexCompare fun _ _ => rfl

variable {self self' : DecodeRecursive}

theorem Fields.sameCourse_decodeWith (k : RecordKind) : (fs : Fields) → (ctx : Context) →
    (∀ t ∈ fs.types, ∀ ctx, Decode.SameCourse (t.decodeWith self ctx) (@Ty.decodeWith .derived self' t ctx)) →
      Decode.SameCourse (fs.decodeWith self k ctx) (@Fields.decodeWith .derived self' k fs ctx)
  | .nil, _, _ => .refl _
  | .cons _ declared t rest, ctx, h => by
      obtain ⟨ht, hrest⟩ := List.forall_mem_cons.mp h
      have hxs := rest.sameCourse_decodeWith k ctx hrest
      unfold Fields.decodeWith
      split
      · exact hxs.map _ _
      · exact .after fun fieldCtx => (ht fieldCtx).bind fun _ _ => hxs.map _ _

theorem Cases.sameCourse_decodeWith (union : String) (payload : Ty) : (cs : Cases) → (ctx : Context) →
    (∀ t ∈ cs.types, ∀ ctx, Decode.SameCourse (t.decodeWith self ctx) (@Ty.decodeWith .derived self' t ctx)) →
      Decode.SameCourse (cs.decodeWith self union payload ctx) (@Cases.decodeWith .derived self' union payload cs ctx)
  | .nil, _, _ => Decode.Agree.throw _
  | .cons _ t rest, ctx, h => by
      obtain ⟨ht, hrest⟩ := List.forall_mem_cons.mp h
      unfold Cases.decodeWith
      split
      · exact (ht ctx).map _ _
      · exact (rest.sameCourse_decodeWith union payload ctx hrest).map _ _

theorem Ty.sameCourse_decodeWith (hself : ∀ r ctx, Decode.SameCourse (self r ctx) (self' r ctx)) (t : Ty)
    (ctx : Context) : Decode.SameCourse (t.decodeWith self ctx) (@Ty.decodeWith .derived self' t ctx) := by
  induction t generalizing ctx with
  | scalar s => exact .refl _
  | option t ih =>
      unfold Ty.decodeWith
      split
      · refine .after fun b => ?_
        split
        · exact (ih ctx.present).map _ _
        · exact .refl _
      · exact (ih ctx).map _ _
  | pointer p t ih => exact (ih ctx).map _ _
  | sequence k t ih | deque t ih =>
      exact .after fun len => (Decode.sameCourse_readRun (ih ctx.element) len ctx.element).map _ _
  | array t n ih => exact (Decode.sameCourse_readRun (ih ctx.element) n ctx.element).map _ _
  | map l k v ihk ihv =>
      exact Decode.SameCourse.map (.after fun len =>
        Decode.sameCourse_readEntries (ihk ctx.element) (ihv ctx.element) len 0 none) _ _
  | set l t ih =>
      exact Decode.SameCourse.map (.after fun len =>
        (Decode.sameCourse_readSet (ih ctx.element) len 0 none).map _ _) _ _
  | record k fs ih => exact (fs.sameCourse_decodeWith k ctx ih).map _ _
  | union name cs ih =>
      exact .after fun variant => (cs.sameCourse_decodeWith name variant.payload ctx.bare ih).map _ _
  | recursive r => exact (hself r ctx).map _ _

theorem Ty.sameCourse_decodeBelow (bound : Nat) (t : Ty) (ctx : Context) :
    Decode.SameCourse (t.decodeBelow bound ctx) (@Ty.decodeBelow .derived bound t ctx) := by
  induction bound using Nat.strongRecOn generalizing t ctx with
  | ind bound ih =>
      unfold Ty.decodeBelow
      refine t.sameCourse_decodeWith (fun r ctx input => ?_) ctx
      split
      · next hbound => exact ih input.length hbound r.body ctx input
      · exact .error _

/-- The order that keys are compared in decides neither on the bytes that are taken nor on the errors. -/
theorem Ty.sameCourse_decode (t : Ty) (ctx : Context) :
    Decode.SameCourse (t.decode ctx) (@Ty.decode .derived t ctx) :=
  fun input => t.sameCourse_decodeBelow (input.length + 1) ctx input

end CanonicalWire
