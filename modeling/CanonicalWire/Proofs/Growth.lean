import CanonicalWire.Catalogue
import CanonicalWire.Proofs.InStep
import CanonicalWire.Proofs.Registration

/-!
A registry that grows. What is registered later never touches what a container was registered with first, so it
shows only where a container was missing.
-/

namespace CanonicalWire

/-- A container is missing in the registry. -/
def CodecError.IsUnregistered (e : CodecError) : Prop := ∃ container, e = .registry (.notAnEnumContainer container)

namespace Registry

/-- Every container of the other registry is in this one, with the same groups. -/
def Extends (r' r : Registry) : Prop := ∀ name c, r.container? name = some c → r'.container? name = some c

theorem extends_register {r r' r'' : Registry} {name : String} {vs : List Variant} (h : r'.Extends r)
    (hr : r'.register name vs = .ok r'') : r''.Extends r := by
  intro container c hc
  have hregister := container?_register hr container
  rw [h container c hc] at hregister
  simpa using hregister

theorem extends_build {registrations more : List (String × List Variant)} {r r' : Registry}
    (h : build registrations = .ok r) (h' : build (registrations ++ more) = .ok r') : r'.Extends r := by
  rw [build, List.foldlM_append, ← build, h] at h'
  have hrefl : r.Extends r := fun _ _ => id
  exact foldlM_invariant (P := fun _ r' => r'.Extends r) extends_register hrefl h'

theorem sameUnless_resolve {r r' : Registry} (h : r'.Extends r) (container group : String) :
    SameUnless CodecError.IsUnregistered ((r.resolve container group).mapError .registry)
      ((r'.resolve container group).mapError .registry) := by
  rw [resolve, resolve]
  cases hc : r.container? container with
  | none => exact .of_excused ⟨container, rfl⟩ _
  | some c =>
      rw [h container c hc]
      exact .refl _

end Registry

theorem Context.inStep_registry {r r' : Registry} (h : r'.Extends r) (ctx : Context) :
    Context.InStep CodecError.IsUnregistered { ctx with registry := r } { ctx with registry := r' } :=
  ⟨rfl, rfl, rfl, fun _ => .refl _, Registry.sameUnless_resolve h⟩

theorem Context.sameUnless_field {r r' : Registry} (h : r'.Extends r) (ctx : Context) (container : Option String)
    (d : Directives) : SameUnless CodecError.IsUnregistered
      (((Context.field { ctx with registry := r } container d).mapError .registry).map fun c =>
        { c with registry := r' })
      ((Context.field { ctx with registry := r' } container d).mapError .registry) := by
  rw [mapError_field, mapError_field]
  have hfield := ((ctx.inStep_registry h).groupOf container d).map fun variants =>
    { ctx.withDirectives d with registry := r', variants := variants }
  revert hfield
  -- Only the group is looked up; the rest of the context is the same on both sides.
  cases groupOf { ctx with registry := r } container d <;> exact id

/-- With more registrations, fields are entered, values encoded and bytes decoded as without them, except where a
container was missing. -/
theorem Registry.sameUnless_of_build [Declarations] {registrations more : List (String × List Variant)}
    {r r' : Registry} (h : build registrations = .ok r) (h' : build (registrations ++ more) = .ok r') (ctx : Context) :
    (∀ container d, SameUnless CodecError.IsUnregistered
      (((Context.field { ctx with registry := r } container d).mapError .registry).map fun c =>
        { c with registry := r' })
      ((Context.field { ctx with registry := r' } container d).mapError .registry)) ∧
    (∀ {t : Ty} (x : Value t) written, SameUnless CodecError.IsUnregistered
      (x.encode { ctx with registry := r } written) (x.encode { ctx with registry := r' } written)) ∧
    (∀ t input, SameUnless CodecError.IsUnregistered
      (Ty.decode t { ctx with registry := r } input) (Ty.decode t { ctx with registry := r' } input)) ∧
    ∀ limits,
      (∀ {t : Ty} (x : Value t), SameUnless CodecError.IsUnregistered
        (Codec.encode ⟨r, limits⟩ x) (Codec.encode ⟨r', limits⟩ x)) ∧
      ∀ t input, SameUnless CodecError.IsUnregistered
        (Codec.decode ⟨r, limits⟩ t input) (Codec.decode ⟨r', limits⟩ t input) := by
  have hextends := extends_build h h'
  have hstep := ctx.inStep_registry hextends
  refine ⟨ctx.sameUnless_field hextends, fun x => x.inStep_encode hstep, fun t => t.inStep_decode hstep,
    fun limits => ?_⟩
  have hcodec := Context.inStep_registry hextends ((Context.start r).withLimits limits)
  exact ⟨Codec.sameUnless_encode hcodec, Codec.sameUnless_decode hcodec⟩

section Frames

def frames : List (String × List Variant) := [("Frame", [⟨"Packet", 4, Catalogue.ping⟩])]

/-- Another container, and the first one with another discriminant. -/
def moreFrames : List (String × List Variant) :=
  [("Envelope", [⟨"Msg", 2, Catalogue.stake⟩]), ("Frame", [⟨"Packet", 9, Catalogue.ping⟩])]

def frameRegistry : Registry := Registry.empty.add <|
  (Container.empty "Frame").withGroup ((VariantMap.empty "Packet").add ⟨"Packet", 4, Catalogue.ping⟩ rfl rfl)

def laterRegistry : Registry := frameRegistry.add <|
  (Container.empty "Envelope").withGroup ((VariantMap.empty "Msg").add ⟨"Msg", 2, Catalogue.stake⟩ rfl rfl)

/-- The first discriminant is read and the later one refused with both registries, while the other container is
known to the second only. -/
theorem Registry.sameUnless_of_build_frames :
    build frames = .ok frameRegistry ∧ build (frames ++ moreFrames) = .ok laterRegistry ∧
      (∃ x, Codec.decode ⟨frameRegistry, {}⟩ Catalogue.frame [4, 0, 0, 0, 5] = .ok x ∧
        Codec.decode ⟨laterRegistry, {}⟩ Catalogue.frame [4, 0, 0, 0, 5] = .ok x) ∧
      Codec.decode ⟨laterRegistry, {}⟩ Catalogue.frame [9, 0, 0, 0, 5] = .error (.unknownEnumVariant 9 "Packet") ∧
      Codec.decode ⟨frameRegistry, {}⟩ Catalogue.envelope [1, 0, 0, 0, 2, 0, 0, 0, 7, 0] =
        .error (.registry (.notAnEnumContainer "Envelope")) ∧
      ∃ x, Codec.decode ⟨laterRegistry, {}⟩ Catalogue.envelope [1, 0, 0, 0, 2, 0, 0, 0, 7, 0] = .ok x := by
  have hframes : build frames = .ok frameRegistry := rfl
  have hlater : build (frames ++ moreFrames) = .ok laterRegistry := rfl
  obtain ⟨-, -, -, hcodec⟩ := sameUnless_of_build hframes hlater (.start .empty)
  obtain ⟨-, hdecode⟩ := hcodec {}
  obtain ⟨x, hx⟩ : ∃ x, Codec.decode ⟨frameRegistry, {}⟩ Catalogue.frame [4, 0, 0, 0, 5] = .ok x := ⟨_, by cbv⟩
  refine ⟨hframes, hlater, ⟨x, hx, (hdecode _ _).ok x hx⟩, (hdecode _ _).error _ (by cbv) ?_, by cbv, ⟨_, by cbv⟩⟩
  rintro ⟨_, ⟨⟩⟩

end Frames

end CanonicalWire
