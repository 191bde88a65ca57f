import CanonicalWire.Proofs.Outcomes
import CanonicalWire.Registry

/-!
What a built registry holds. Each container's first registration decides on it, and of the variants given there
each group's index holds those of the group.
-/

namespace CanonicalWire

/-! ### The index of a group -/

namespace VariantMap

theorem place_perm (v : Variant) (ws : List Variant) : (place v ws).Perm (v :: ws) := by
  induction ws with
  | nil => exact .refl _
  | cons w ws ih =>
      rw [place]
      split
      · exact .refl _
      · exact (ih.cons w).trans (.swap v w ws)

theorem insert_eq_ok {m m' : VariantMap} {container : String} {v : Variant} :
    m.insert container v = .ok m' ↔ ∃ hvariant hpayload, m' = m.add v hvariant hpayload := by
  rw [insert]
  split
  · split
    · simp_all [eq_comm]
    · simp_all
  · simp_all

theorem group_of_insert {m m' : VariantMap} {container : String} {v : Variant} (h : m.insert container v = .ok m') :
    m'.group = m.group := by
  obtain ⟨_, _, rfl⟩ := insert_eq_ok.mp h
  rfl

/-- The index holds those of the variants that belong to the group, and finds them both ways. -/
structure Indexes (m : VariantMap) (vs : List Variant) (group : String) : Prop where
  group_eq : m.group = group
  variant : ∀ d v, m.variant d = some v ↔ v ∈ vs ∧ v.group = group ∧ v.discriminant = d
  discriminantOf : ∀ payload d, m.discriminantOf payload = some d ↔ ⟨group, d, payload⟩ ∈ vs
  inverse : ∀ payload d, m.discriminantOf payload = some d ↔ ∃ v, m.variant d = some v ∧ v.payload = payload
  size : m.size = vs.countP (·.group = group)
  perm : m.toList.Perm (vs.filter (·.group = group))
  ascending : m.toList.Pairwise fun v w => v.discriminant < w.discriminant

theorem indexes_of_perm {m : VariantMap} {vs : List Variant} {group : String} (hgroup : m.group = group)
    (hperm : m.byDiscriminant.Perm (vs.filter (·.group = group))) : m.Indexes vs group := by
  have hmem (v : Variant) : v ∈ m.byDiscriminant ↔ v ∈ vs ∧ v.group = group := by simp [hperm.mem_iff]
  refine ⟨hgroup, fun d v => ?_, fun payload d => ?_, fun _ _ => discriminantOf_eq_some_iff_variant, ?_, hperm,
    m.ascending⟩
  · rw [variant_eq_some, hmem, and_assoc]
  · rw [discriminantOf_eq_some, m.agree]
    constructor
    · rintro ⟨v, hv, rfl, rfl⟩
      obtain ⟨hv, rfl⟩ := (hmem v).mp hv
      exact hv
    · intro h
      exact ⟨_, (hmem _).mpr ⟨h, rfl⟩, rfl, rfl⟩
  · rw [VariantMap.size, hperm.length_eq, List.countP_eq_length_filter]

end VariantMap

/-! ### The groups of a container -/

namespace Container

theorem find?_placeGroup (m : VariantMap) (ms : List VariantMap) (group : String) :
    (placeGroup m ms).find? (·.group == group) =
      if group = m.group then some m else ms.find? (·.group == group) := by
  induction ms with
  | nil =>
      by_cases hgroup : group = m.group
      · simp [placeGroup, hgroup]
      · simp [placeGroup, hgroup, Ne.symm hgroup]
  | cons w ms ih =>
      rw [placeGroup]
      split
      · next hw =>
          by_cases hgroup : group = m.group
          · simp [hgroup]
          · simp [hgroup, hw, Ne.symm hgroup]
      · next hw =>
          by_cases hgroup : group = m.group
          · rw [List.find?_cons, beq_eq_false_iff_ne.mpr (hgroup ▸ hw), if_pos hgroup]
            exact ih.trans (if_pos hgroup)
          · simp [hgroup, List.find?_cons, ih]

/-- Only the index of the variant's group changes: the variant is inserted there. -/
theorem addVariant_eq_ok {c c' : Container} {v : Variant} (h : c.addVariant v = .ok c') :
    c'.name = c.name ∧
    ∃ m, ((c.group? v.group).getD (.empty v.group)).insert c.name v = .ok m ∧
      ∀ group, c'.group? group = if group = v.group then some m else c.group? group := by
  obtain ⟨m, hm, rfl⟩ := map_eq_ok.mp h
  have hfound : ((c.group? v.group).getD (.empty v.group)).group = v.group := by
    cases hgroup : c.group? v.group with
    | none => rfl
    | some n => exact beq_iff_eq.mp (List.find?_some hgroup :)
  have hgroup : m.group = v.group := (VariantMap.group_of_insert hm).trans hfound
  exact ⟨rfl, m, hm, fun group => hgroup ▸ find?_placeGroup m c.groups group⟩

/-- What is found as the index of a group: nothing if no variant belongs to the group, else all that do. -/
def Finds (vs : List Variant) (group : String) : Option VariantMap → Prop
  | none => ∀ v ∈ vs, v.group ≠ group
  | some m => (∃ v ∈ vs, v.group = group) ∧ m.group = group ∧ m.byDiscriminant.Perm (vs.filter (·.group = group))

/-- What is found, or the empty index where nothing is, indexes the variants of the group. -/
theorem indexes_of_finds {vs : List Variant} {group : String} {found : Option VariantMap} (h : Finds vs group found) :
    (found.getD (.empty group)).Indexes vs group := by
  cases found with
  | none =>
      have hnone : vs.filter (·.group = group) = [] := by simpa [Finds] using h
      exact VariantMap.indexes_of_perm rfl (hnone ▸ .refl _)
  | some m => exact VariantMap.indexes_of_perm h.2.1 h.2.2

theorem finds_insert {vs : List Variant} {container : String} {v : Variant} {found : Option VariantMap}
    {m : VariantMap} (h : Finds vs v.group found)
    (hm : (found.getD (.empty v.group)).insert container v = .ok m) : Finds (vs ++ [v]) v.group (some m) := by
  obtain ⟨_, _, rfl⟩ := VariantMap.insert_eq_ok.mp hm
  have hfound := indexes_of_finds h
  refine ⟨⟨v, by simp, rfl⟩, hfound.group_eq, (VariantMap.place_perm _ _).trans ?_⟩
  have hfilter : (vs ++ [v]).filter (·.group = v.group) = vs.filter (·.group = v.group) ++ [v] := by simp
  rw [hfilter]
  exact (hfound.perm.cons v).trans (List.perm_append_singleton v _).symm

theorem finds_other {vs : List Variant} {v : Variant} {group : String} {found : Option VariantMap}
    (h : Finds vs group found) (hgroup : v.group ≠ group) : Finds (vs ++ [v]) group found := by
  cases found with
  | none =>
      intro w hw
      rcases List.mem_append.mp hw with hw | hw
      · exact h w hw
      · exact List.mem_singleton.mp hw ▸ hgroup
  | some m =>
      obtain ⟨⟨w, hw, hwgroup⟩, hm⟩ := h
      refine ⟨⟨w, List.mem_append_left _ hw, hwgroup⟩, ?_⟩
      simpa [hgroup] using hm

/-- The groups of the variants, and nothing else, are indexed. -/
def Indexed (c : Container) (vs : List Variant) : Prop := ∀ group, Finds vs group (c.group? group)

theorem indexed_addVariant {c c' : Container} {vs : List Variant} {v : Variant} (h : c.Indexed vs)
    (hadd : c.addVariant v = .ok c') : c'.Indexed (vs ++ [v]) := by
  obtain ⟨-, m, hm, hfind⟩ := addVariant_eq_ok hadd
  intro group
  rw [hfind]
  split
  · next hgroup => exact hgroup ▸ finds_insert (h v.group) hm
  · next hgroup => exact finds_other (h group) (Ne.symm hgroup)

theorem ofVariants_eq_ok {name : String} {vs : List Variant} {c : Container} (h : ofVariants name vs = .ok c) :
    c.name = name ∧ c.Indexed vs := by
  have hempty : (empty name).name = name ∧ (empty name).Indexed [] := ⟨rfl, fun _ _ => nofun⟩
  refine foldlM_invariant (P := fun seen c => c.name = name ∧ c.Indexed seen) ?_ hempty h
  rintro seen c v c' ⟨hname, hindexed⟩ hadd
  exact ⟨(addVariant_eq_ok hadd).1.trans hname, indexed_addVariant hindexed hadd⟩

end Container

/-! ### The containers of a registry -/

namespace Registry

/-- A container that is not registered yet is indexed by its variants, and every other stays as it is. -/
theorem container?_register {r r' : Registry} {name : String} {vs : List Variant}
    (h : r.register name vs = .ok r') (container : String) :
    (r'.container? container).map .ok = ((r.container? container).map .ok).or
      (if container = name then some (Container.ofVariants name vs) else none) := by
  rw [register] at h
  split at h
  · next hcontains =>
      obtain rfl := Except.ok.inj h
      split
      · next hname =>
          obtain ⟨c, hc⟩ := Option.isSome_iff_exists.mp hcontains
          rw [hname, hc]
          rfl
      · rw [Option.or_none]
  · next hcontains =>
      obtain ⟨c, hc, rfl⟩ := map_eq_ok.mp h
      obtain ⟨hname, -⟩ := Container.ofVariants_eq_ok hc
      rw [add, dif_neg (hname ▸ hcontains), container?, List.find?_append, ← container?, hc]
      by_cases hcontainer : container = name
      · simp [hname, hcontainer]
      · simp [hname, hcontainer, Ne.symm hcontainer]

/-- Every container is indexed by the variants of its first registration. -/
def Holds (r : Registry) (registrations : List (String × List Variant)) : Prop :=
  ∀ container, (r.container? container).map .ok =
    (registrations.lookup container).map (Container.ofVariants container)

theorem holds_register {r r' : Registry} {registrations : List (String × List Variant)}
    {registration : String × List Variant} (h : r.Holds registrations)
    (hr : r.register registration.1 registration.2 = .ok r') : r'.Holds (registrations ++ [registration]) := by
  intro container
  rw [container?_register hr, h, List.lookup_append, Option.map_or, List.lookup_cons, List.lookup_nil]
  congr 1
  by_cases hcontainer : container = registration.1
  · simp [hcontainer]
  · have hbeq : (container == registration.1) = false := beq_eq_false_iff_ne.mpr hcontainer
    simp [hbeq, hcontainer]

theorem holds_build {registrations : List (String × List Variant)} {r : Registry}
    (h : build registrations = .ok r) : r.Holds registrations := by
  have hempty : empty.Holds [] := fun _ => rfl
  exact foldlM_invariant (P := fun seen r => Holds r seen) holds_register hempty h

section Resolved

variable {r : Registry} {registrations : List (String × List Variant)} (h : r.Holds registrations)
  {container group : String}
include h

theorem resolve_of_lookup_none (hlookup : registrations.lookup container = none) :
    r.resolve container group = .error (.notAnEnumContainer container) := by
  have hcontainer : r.container? container = none := by simpa [hlookup] using h container
  rw [resolve, hcontainer]

theorem finds_of_lookup {vs : List Variant} (hlookup : registrations.lookup container = some vs) :
    ∃ c, r.container? container = some c ∧ c.name = container ∧ ∀ group, Container.Finds vs group (c.group? group) := by
  obtain ⟨c, hc, hvs⟩ : ∃ c, r.container? container = some c ∧ .ok c = Container.ofVariants container vs := by
    simpa [hlookup] using h container
  obtain ⟨hname, hfinds⟩ := Container.ofVariants_eq_ok hvs.symm
  exact ⟨c, hc, hname, hfinds⟩

theorem resolve_of_no_variant {vs : List Variant} (hlookup : registrations.lookup container = some vs)
    (hvs : ∀ v ∈ vs, v.group ≠ group) :
    r.resolve container group = .error (.enumGroupNotDefined container group) := by
  obtain ⟨c, hc, rfl, hfinds⟩ := finds_of_lookup h hlookup
  have hgroup : c.group? group = none := by
    cases hfound : c.group? group with
    | none => rfl
    | some m =>
        obtain ⟨⟨v, hv, hgroup⟩, -⟩ := hfound ▸ hfinds group
        exact absurd hgroup (hvs v hv)
  rw [resolve, hc]
  simp only [hgroup]

theorem resolve_of_variant {vs : List Variant} (hlookup : registrations.lookup container = some vs)
    {v : Variant} (hv : v ∈ vs) (hgroup : v.group = group) :
    ∃ m, r.resolve container group = .ok m ∧ m.Indexes vs group := by
  obtain ⟨c, hc, rfl, hfinds⟩ := finds_of_lookup h hlookup
  rw [resolve, hc]
  cases hfound : c.group? group with
  | none => exact absurd hgroup ((hfound ▸ hfinds group) v hv)
  | some m =>
      obtain ⟨-, hname, hperm⟩ := hfound ▸ hfinds group
      exact ⟨m, by simp only [hfound], VariantMap.indexes_of_perm hname hperm⟩

end Resolved

/-- What a look-up in a built registry gives is decided by the container's first registration. -/
theorem resolve_build {registrations : List (String × List Variant)} {r : Registry}
    (h : build registrations = .ok r) (container group : String) :
    (r.resolve container group = .error (.notAnEnumContainer container) ↔
      ∀ registration ∈ registrations, registration.1 ≠ container) ∧
    (r.resolve container group = .error (.enumGroupNotDefined container group) ↔
      ∃ vs, registrations.lookup container = some vs ∧ ∀ v ∈ vs, v.group ≠ group) ∧
    ∀ vs, registrations.lookup container = some vs → (∃ v ∈ vs, v.group = group) →
      ∃ m, r.resolve container group = .ok m ∧ m.Indexes vs group := by
  have hholds := holds_build h
  have hnone : registrations.lookup container = none ↔
      ∀ registration ∈ registrations, registration.1 ≠ container := by
    simp only [List.lookup_eq_none_iff, bne_iff_ne, ne_comm]
  rw [← hnone]
  cases hlookup : registrations.lookup container with
  | none => simp [resolve_of_lookup_none hholds hlookup]
  | some vs =>
      by_cases hvs : ∀ v ∈ vs, v.group ≠ group
      · have hresolve := resolve_of_no_variant hholds hlookup hvs
        simpa [hresolve] using hvs
      · obtain ⟨v, hv, hgroup⟩ : ∃ v ∈ vs, v.group = group := by simpa using hvs
        obtain ⟨m, hresolve, hm⟩ := resolve_of_variant hholds hlookup hv hgroup
        refine ⟨by simp [hresolve], ?_, fun _ hvs _ => ⟨m, hresolve, Option.some.inj hvs ▸ hm⟩⟩
        simpa [hresolve] using ⟨v, hv, hgroup⟩

section Ballots

/-- Two groups taken in turns, a container without variants, and a container that comes again. -/
def ballots : List (String × List Variant) :=
  [("Envelope", [⟨"Msg", 1, .u16⟩, ⟨"Gov", 1, .u8⟩, ⟨"Msg", -1, .u8⟩]), ("Plain", []),
    ("Envelope", [⟨"Msg", 7, .u32⟩, ⟨"Late", 0, .u8⟩])]

theorem resolve_build_ballots : ∃ r, build ballots = .ok r ∧
    r.resolve "Ballot" "Msg" = .error (.notAnEnumContainer "Ballot") ∧
    r.resolve "Plain" "Msg" = .error (.enumGroupNotDefined "Plain" "Msg") ∧
    r.resolve "Envelope" "Late" = .error (.enumGroupNotDefined "Envelope" "Late") ∧
    ∃ m, r.resolve "Envelope" "Msg" = .ok m ∧ m.size = 2 ∧ m.discriminantOf .u8 = some (-1) ∧
      m.variant 1 = some ⟨"Msg", 1, .u16⟩ ∧ m.discriminantOf .u32 ≠ some 7 := by
  obtain ⟨r, hr⟩ : ∃ r, build ballots = .ok r := ⟨_, rfl⟩
  refine ⟨r, hr, ?_, ?_, ?_, ?_⟩
  · exact (resolve_build hr _ _).1.mpr (by decide)
  · exact (resolve_build hr _ _).2.1.mpr ⟨_, rfl, by decide⟩
  · exact (resolve_build hr _ _).2.1.mpr ⟨_, rfl, by decide⟩
  · obtain ⟨m, hm, hindexes⟩ := (resolve_build hr "Envelope" "Msg").2.2 _ rfl (by decide)
    refine ⟨m, hm, hindexes.size.trans (by decide), (hindexes.discriminantOf _ _).mpr (by decide),
      (hindexes.variant _ _).mpr (by decide), fun hlate => ?_⟩
    exact absurd ((hindexes.discriminantOf _ _).mp hlate) (by decide)

end Ballots

end Registry

end CanonicalWire
