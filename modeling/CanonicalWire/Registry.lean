import CanonicalWire.Ty

/-!
# The registry of enum variants

A container describes the unions of its fields by variants: a group, a discriminant and a payload type.
The registry indexes each registered container by group and, within a group, both ways: a payload type
gives its discriminant, a discriminant gives its variant. Neither occurs twice in a group.
-/

namespace CanonicalWire

/-- One payload type of a group, with its discriminant. -/
structure Variant where
  group : String
  discriminant : Int32
  payload : Ty
deriving DecidableEq

inductive RegistryError where
  | notAnEnumContainer (container : String)
  | enumGroupNotDefined (container group : String)
  | duplicateDiscriminant (container group : String) (discriminant : Int32)
  | duplicatePayload (container group payload : String)
deriving DecidableEq, Repr

namespace RegistryError

def message : RegistryError → String
  | .notAnEnumContainer container => s!"Type {container} is not a registered enum container"
  | .enumGroupNotDefined container group => s!"Enum group '{group}' is not defined by {container}"
  | .duplicateDiscriminant container group discriminant =>
      s!"Discriminant {discriminant} is used twice in group '{group}' of {container}"
  | .duplicatePayload container group payload =>
      s!"Payload type {payload} is registered twice in group '{group}' of {container}"

end RegistryError

/-- The index of one group, both ways. -/
structure VariantMap where
  group : String
  byPayload : List (Ty × Int32)
  /-- In ascending order of the discriminants. -/
  byDiscriminant : List Variant
  /-- Both lists hold the same variants. -/
  agree : ∀ payload d, (payload, d) ∈ byPayload ↔
    ∃ v ∈ byDiscriminant, v.payload = payload ∧ v.discriminant = d
  distinct : byPayload.Pairwise fun p q => p.1 ≠ q.1
  ascending : byDiscriminant.Pairwise fun v w => v.discriminant < w.discriminant
deriving DecidableEq

namespace VariantMap

def empty (group : String) : VariantMap := ⟨group, [], [], by simp, .nil, .nil⟩

/-- The discriminant written before a payload of the given type. -/
def discriminantOf (m : VariantMap) (payload : Ty) : Option Int32 := m.byPayload.lookup payload

/-- The variant that a discriminant stands for. -/
def variant (m : VariantMap) (discriminant : Int32) : Option Variant :=
  m.byDiscriminant.find? (·.discriminant == discriminant)

def size (m : VariantMap) : Nat := m.byDiscriminant.length

/-- The variants in ascending order of their discriminants. -/
def toList (m : VariantMap) : List Variant := m.byDiscriminant

theorem lookup_eq_some {ps : List (Ty × Int32)} (hdistinct : ps.Pairwise fun p q => p.1 ≠ q.1)
    {payload : Ty} {d : Int32} : ps.lookup payload = some d ↔ (payload, d) ∈ ps := by
  induction ps with
  | nil => simp
  | cons p ps ih =>
      obtain ⟨hp, hps⟩ := List.pairwise_cons.mp hdistinct
      rw [List.lookup_cons, List.mem_cons]
      split
      · next heq =>
          obtain rfl := beq_iff_eq.mp heq
          have hnotin : (p.1, d) ∉ ps := fun hmem => hp _ hmem rfl
          simp [hnotin, Prod.ext_iff, eq_comm]
      · next hne =>
          have hne : payload ≠ p.1 := by simpa using hne
          simp [ih hps, Prod.ext_iff, hne]

theorem find_eq_some {vs : List Variant} (hascending : vs.Pairwise fun v w => v.discriminant < w.discriminant)
    {d : Int32} {v : Variant} :
    vs.find? (·.discriminant == d) = some v ↔ v ∈ vs ∧ v.discriminant = d := by
  induction vs with
  | nil => simp
  | cons w ws ih =>
      obtain ⟨hw, hws⟩ := List.pairwise_cons.mp hascending
      rw [List.find?_cons, List.mem_cons]
      split
      · next heq =>
          obtain rfl := beq_iff_eq.mp heq
          have hnotin : v ∈ ws → v.discriminant ≠ w.discriminant := fun hmem heq =>
            Int32.lt_irrefl (heq ▸ hw v hmem)
          grind
      · next hne =>
          have hne : w.discriminant ≠ d := by simpa using hne
          rw [ih hws]
          grind

theorem discriminantOf_eq_some {m : VariantMap} {payload : Ty} {d : Int32} :
    m.discriminantOf payload = some d ↔ (payload, d) ∈ m.byPayload :=
  lookup_eq_some m.distinct

theorem variant_eq_some {m : VariantMap} {d : Int32} {v : Variant} :
    m.variant d = some v ↔ v ∈ m.byDiscriminant ∧ v.discriminant = d :=
  find_eq_some m.ascending

/-- The two indexes are inverse to each other. -/
theorem discriminantOf_eq_some_iff_variant {m : VariantMap} {payload : Ty} {d : Int32} :
    m.discriminantOf payload = some d ↔ ∃ v, m.variant d = some v ∧ v.payload = payload := by
  simp only [discriminantOf_eq_some, m.agree, variant_eq_some]
  constructor
  · intro h
    obtain ⟨v, hv, hpayload, hd⟩ := h
    exact ⟨v, ⟨hv, hd⟩, hpayload⟩
  · intro h
    obtain ⟨v, ⟨hv, hd⟩, hpayload⟩ := h
    exact ⟨v, hv, hpayload, hd⟩

/-- Puts a variant before the first one with a greater discriminant. -/
def place (v : Variant) : List Variant → List Variant
  | [] => [v]
  | w :: ws => if v.discriminant < w.discriminant then v :: w :: ws else w :: place v ws

@[simp] theorem mem_place {u v : Variant} {ws : List Variant} : u ∈ place v ws ↔ u = v ∨ u ∈ ws := by
  induction ws with
  | nil => simp [place]
  | cons w ws ih =>
      rw [place]
      split
      · simp
      · simp only [List.mem_cons, ih, or_left_comm]

theorem ascending_place {v : Variant} {ws : List Variant}
    (hws : ws.Pairwise fun a b => a.discriminant < b.discriminant)
    (hnew : ∀ w ∈ ws, w.discriminant ≠ v.discriminant) :
    (place v ws).Pairwise fun a b => a.discriminant < b.discriminant := by
  induction ws with
  | nil => exact List.pairwise_singleton _ _
  | cons w ws ih =>
      obtain ⟨hw, hrest⟩ := List.pairwise_cons.mp hws
      rw [place]
      split
      · next hlt =>
          refine List.pairwise_cons.mpr ⟨fun u hu => ?_, hws⟩
          rcases List.mem_cons.mp hu with rfl | hu
          · exact hlt
          · exact Int32.lt_trans hlt (hw u hu)
      · next hle =>
          have hlt : w.discriminant < v.discriminant :=
            Int32.lt_of_le_of_ne (Int32.not_lt.mp hle) (hnew w (List.mem_cons_self ..))
          refine List.pairwise_cons.mpr ⟨fun u hu => ?_, ih hrest fun u hu => hnew u (List.mem_cons_of_mem _ hu)⟩
          rcases mem_place.mp hu with rfl | hu
          · exact hlt
          · exact hw u hu

/-- A map with one more variant, whose discriminant and payload type are not in use. -/
def add (m : VariantMap) (v : Variant) (hvariant : m.variant v.discriminant = none)
    (hpayload : m.discriminantOf v.payload = none) : VariantMap where
  group := m.group
  byPayload := (v.payload, v.discriminant) :: m.byPayload
  byDiscriminant := place v m.byDiscriminant
  agree payload d := by
    simp only [List.mem_cons, Prod.mk.injEq, mem_place, m.agree]
    constructor
    · rintro (⟨rfl, rfl⟩ | ⟨w, hw, hpd⟩)
      · exact ⟨v, .inl rfl, rfl, rfl⟩
      · exact ⟨w, .inr hw, hpd⟩
    · intro h
      obtain ⟨w, rfl | hw, rfl, rfl⟩ := h
      · exact .inl ⟨rfl, rfl⟩
      · exact .inr ⟨w, hw, rfl, rfl⟩
  distinct := by
    refine List.pairwise_cons.mpr ⟨fun q hq heq => ?_, m.distinct⟩
    have hne := List.lookup_eq_none_iff.mp hpayload q hq
    exact absurd heq (by simpa using hne)
  ascending := ascending_place m.ascending fun w hw heq => by
    have hne := List.find?_eq_none.mp hvariant w hw
    exact absurd heq (by simpa using hne)

/-- One more variant. A discriminant in use is reported before a payload type in use. -/
def insert (m : VariantMap) (container : String) (v : Variant) : Except RegistryError VariantMap :=
  if hvariant : m.variant v.discriminant = none then
    if hpayload : m.discriminantOf v.payload = none then .ok (m.add v hvariant hpayload)
    else .error (.duplicatePayload container m.group v.payload.name)
  else .error (.duplicateDiscriminant container m.group v.discriminant)

end VariantMap

/-- A registered container: the indexes of its groups, no two of one group. -/
structure Container where
  name : String
  groups : List VariantMap
  distinct : groups.Pairwise fun m n => m.group ≠ n.group
deriving DecidableEq

namespace Container

def empty (name : String) : Container := ⟨name, [], .nil⟩

def group? (c : Container) (group : String) : Option VariantMap := c.groups.find? (·.group == group)

/-- Puts an index in the place of the one of the same group, or last if there is none. -/
def placeGroup (m : VariantMap) : List VariantMap → List VariantMap
  | [] => [m]
  | n :: ms => if n.group = m.group then m :: ms else n :: placeGroup m ms

theorem mem_of_mem_placeGroup {m n : VariantMap} {ms : List VariantMap} (h : n ∈ placeGroup m ms) :
    n = m ∨ n ∈ ms := by
  induction ms with
  | nil => exact .inl (List.mem_singleton.mp h)
  | cons w ms ih =>
      rw [placeGroup] at h
      split at h
      · exact (List.mem_cons.mp h).imp_right (List.mem_cons_of_mem w)
      · rcases List.mem_cons.mp h with rfl | h
        · exact .inr (List.mem_cons_self ..)
        · exact (ih h).imp_right (List.mem_cons_of_mem w)

theorem distinct_placeGroup {m : VariantMap} {ms : List VariantMap}
    (h : ms.Pairwise fun m n => m.group ≠ n.group) : (placeGroup m ms).Pairwise fun m n => m.group ≠ n.group := by
  induction ms with
  | nil => exact List.pairwise_singleton _ _
  | cons w ms ih =>
      obtain ⟨hw, hms⟩ := List.pairwise_cons.mp h
      rw [placeGroup]
      split
      · next heq => exact List.pairwise_cons.mpr ⟨fun n hn => heq ▸ hw n hn, hms⟩
      · next hne =>
          refine List.pairwise_cons.mpr ⟨fun n hn => ?_, ih hms⟩
          rcases mem_of_mem_placeGroup hn with rfl | hn
          · exact hne
          · exact hw n hn

/-- A container with the given index of a group. -/
def withGroup (c : Container) (m : VariantMap) : Container :=
  ⟨c.name, placeGroup m c.groups, distinct_placeGroup c.distinct⟩

/-- Adds a variant to the index of its group, which is new if the group is. -/
def addVariant (c : Container) (v : Variant) : Except RegistryError Container :=
  (((c.group? v.group).getD (.empty v.group)).insert c.name v).map c.withGroup

/-- Indexes a container's variants, in order; the first that collides is reported. -/
def ofVariants (name : String) (variants : List Variant) : Except RegistryError Container :=
  variants.foldlM addVariant (.empty name)

end Container

/-- The registered containers, no two of one name. -/
structure Registry where
  containers : List Container
  distinct : containers.Pairwise fun c d => c.name ≠ d.name
deriving DecidableEq

namespace Registry

def empty : Registry := ⟨[], .nil⟩

def container? (r : Registry) (name : String) : Option Container := r.containers.find? (·.name == name)

def contains (r : Registry) (name : String) : Bool := (r.container? name).isSome

def size (r : Registry) : Nat := r.containers.length

/-- One more container, if there is none of its name. -/
def add (r : Registry) (c : Container) : Registry :=
  if h : r.contains c.name = true then r
  else
    { containers := r.containers ++ [c]
      distinct := List.pairwise_append.mpr ⟨r.distinct, List.pairwise_singleton _ _, fun d hd _ hc heq => h (by
        obtain rfl := List.mem_singleton.mp hc
        exact List.find?_isSome.mpr ⟨d, hd, beq_iff_eq.mpr heq⟩)⟩ }

/-- Registers a container with its variants. A container that is registered stays as it is. -/
def register (r : Registry) (name : String) (variants : List Variant) : Except RegistryError Registry :=
  if r.contains name then .ok r
  else (Container.ofVariants name variants).map r.add

/-- The registry of a run of registrations. -/
def build (registrations : List (String × List Variant)) : Except RegistryError Registry :=
  registrations.foldlM (fun r registration => r.register registration.1 registration.2) .empty

/-- The index of a container's group. -/
def resolve (r : Registry) (container group : String) : Except RegistryError VariantMap :=
  match r.container? container with
  | none => .error (.notAnEnumContainer container)
  | some c =>
      match c.group? group with
      | none => .error (.enumGroupNotDefined c.name group)
      | some m => .ok m

end Registry
end CanonicalWire
