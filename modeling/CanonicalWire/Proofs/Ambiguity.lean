import CanonicalWire.Proofs.Registration

/-!
Which registrations are accepted. A container is refused only for variants of its own that clash within a group,
and the first variant that clashes with an earlier one is the one that is reported. No container's index depends
on the others, so the order of registrations does not show, and a registration that is repeated does nothing.
-/

namespace CanonicalWire

/-- Variants of one group that use one discriminant or one payload type. -/
def Variant.Clashes (v w : Variant) : Prop :=
  v.group = w.group ∧ (v.discriminant = w.discriminant ∨ v.payload = w.payload)

instance (v w : Variant) : Decidable (v.Clashes w) := inferInstanceAs (Decidable (_ ∧ _))

/-- Within each group, neither a discriminant nor a payload type is used twice. -/
def Unambiguous (vs : List Variant) : Prop := vs.Pairwise fun v w => ¬v.Clashes w

instance (vs : List Variant) : Decidable (Unambiguous vs) := inferInstanceAs (Decidable (vs.Pairwise _))

theorem unambiguous_concat {vs : List Variant} {v : Variant} :
    Unambiguous (vs ++ [v]) ↔ Unambiguous vs ∧ ∀ u ∈ vs, ¬u.Clashes v := by
  simp [Unambiguous, List.pairwise_append]

/-- What is reported of a variant that clashes with one of those before it. -/
inductive Collision (container : String) (before : List Variant) (v : Variant) : RegistryError → Prop where
  | discriminant {u : Variant} (hmem : u ∈ before) (hgroup : u.group = v.group)
      (heq : u.discriminant = v.discriminant) :
      Collision container before v (.duplicateDiscriminant container v.group v.discriminant)
  /-- A payload type is reported only if the discriminant is new to the group. -/
  | payload {u : Variant} (hnew : ∀ w ∈ before, w.group = v.group → w.discriminant ≠ v.discriminant)
      (hmem : u ∈ before) (hgroup : u.group = v.group) (heq : u.payload = v.payload) :
      Collision container before v (.duplicatePayload container v.group v.payload.name)

/-! ### One variant -/

namespace VariantMap

variable {m : VariantMap} {vs : List Variant} {v : Variant} {container : String}

theorem variant_eq_none_iff {group : String} (h : m.Indexes vs group) (d : Int32) :
    m.variant d = none ↔ ∀ u ∈ vs, u.group = group → u.discriminant ≠ d := by
  rw [Option.eq_none_iff_forall_ne_some]
  constructor
  · intro hnone u hu hgroup hd
    exact hnone u ((h.variant d u).mpr ⟨hu, hgroup, hd⟩)
  · intro hnew u hu
    obtain ⟨hmem, hgroup, hd⟩ := (h.variant d u).mp hu
    exact hnew u hmem hgroup hd

theorem discriminantOf_eq_none_iff {group : String} (h : m.Indexes vs group) (payload : Ty) :
    m.discriminantOf payload = none ↔ ∀ u ∈ vs, u.group = group → u.payload ≠ payload := by
  rw [Option.eq_none_iff_forall_ne_some]
  constructor
  · intro hnone u hu hgroup hpayload
    apply hnone u.discriminant
    rw [h.discriminantOf, ← hgroup, ← hpayload]
    exact hu
  · intro hnew d hd
    exact hnew _ ((h.discriminantOf payload d).mp hd) rfl rfl

/-- An index takes a variant that clashes with none that it holds. -/
theorem exists_insert (h : m.Indexes vs v.group) :
    (∃ m', m.insert container v = .ok m') ↔ ∀ u ∈ vs, ¬u.Clashes v := by
  have hvariant := variant_eq_none_iff h v.discriminant
  have hpayload := discriminantOf_eq_none_iff h v.payload
  have hinsert : (∃ m', m.insert container v = .ok m') ↔
      m.variant v.discriminant = none ∧ m.discriminantOf v.payload = none := by
    simp [insert_eq_ok]
  rw [hinsert, hvariant, hpayload, ← forall₂_and]
  simp only [Variant.Clashes, not_and, not_or, imp_and]

theorem insert_eq_error (h : m.Indexes vs v.group) {e : RegistryError} :
    m.insert container v = .error e ↔ Collision container vs v e := by
  have hvariant := variant_eq_none_iff h v.discriminant
  have hpayload := discriminantOf_eq_none_iff h v.payload
  rw [insert, h.group_eq]
  constructor
  · intro herror
    split at herror
    · next hnone =>
        split at herror
        · cases herror
        · next hsome =>
            obtain ⟨u, hmem, hgroup, heq⟩ : ∃ u ∈ vs, u.group = v.group ∧ u.payload = v.payload := by
              simpa using mt hpayload.mpr hsome
            cases herror
            exact .payload (hvariant.mp hnone) hmem hgroup heq
    · next hsome =>
        obtain ⟨u, hmem, hgroup, heq⟩ : ∃ u ∈ vs, u.group = v.group ∧ u.discriminant = v.discriminant := by
          simpa using mt hvariant.mpr hsome
        cases herror
        exact .discriminant hmem hgroup heq
  · intro hcollision
    cases hcollision with
    | discriminant hmem hgroup heq =>
        rw [dif_neg fun hnone => hvariant.mp hnone _ hmem hgroup heq]
    | payload hnew hmem hgroup heq =>
        rw [dif_pos (hvariant.mpr hnew), dif_neg fun hnone => hpayload.mp hnone _ hmem hgroup heq]

end VariantMap

/-! ### A list of variants -/

namespace Container

variable {c : Container} {vs : List Variant} {v : Variant}

theorem addVariant_eq_error (h : c.Indexed vs) {e : RegistryError} :
    c.addVariant v = .error e ↔ Collision c.name vs v e :=
  map_eq_error.trans (VariantMap.insert_eq_error (indexes_of_finds (h v.group)))

theorem exists_addVariant (h : c.Indexed vs) : (∃ c', c.addVariant v = .ok c') ↔ ∀ u ∈ vs, ¬u.Clashes v :=
  exists_map_eq_ok.trans (VariantMap.exists_insert (indexes_of_finds (h v.group)))

theorem exists_ofVariants (name : String) (vs : List Variant) :
    (∃ c, ofVariants name vs = .ok c) ↔ Unambiguous vs := by
  -- From the end, since a variant is compared with those before it.
  induction vs using List.reverseRecOn with
  | nil => exact iff_of_true ⟨.empty name, rfl⟩ .nil
  | append_singleton vs v ih =>
      rw [unambiguous_concat, ← ih]
      simp only [ofVariants, List.foldlM_append, List.foldlM_cons, List.foldlM_nil, bind_pure, bind_eq_ok]
      constructor
      · intro h
        obtain ⟨c', c, hc, hv⟩ := h
        exact ⟨⟨c, hc⟩, (exists_addVariant (ofVariants_eq_ok hc).2).mp ⟨c', hv⟩⟩
      · intro h
        obtain ⟨⟨c, hc⟩, hv⟩ := h
        obtain ⟨c', hc'⟩ := (exists_addVariant (ofVariants_eq_ok hc).2).mpr hv
        exact ⟨c', c, hc, hc'⟩

/-- The first variant that clashes with one before it is reported. -/
theorem ofVariants_eq_error {name : String} {e : RegistryError} :
    ofVariants name vs = .error e ↔
      ∃ before v after, vs = before ++ v :: after ∧ Unambiguous before ∧ Collision name before v e := by
  rw [ofVariants, foldlM_eq_error]
  constructor
  · intro h
    obtain ⟨before, v, after, c, hvs, hbefore, hv⟩ := h
    obtain ⟨rfl, hindexed⟩ := ofVariants_eq_ok hbefore
    exact ⟨before, v, after, hvs, (exists_ofVariants _ before).mp ⟨c, hbefore⟩, (addVariant_eq_error hindexed).mp hv⟩
  · intro h
    obtain ⟨before, v, after, hvs, hbefore, hv⟩ := h
    obtain ⟨c, hc⟩ := (exists_ofVariants name before).mpr hbefore
    obtain ⟨rfl, hindexed⟩ := ofVariants_eq_ok hc
    exact ⟨before, v, after, c, hvs, hc, (addVariant_eq_error hindexed).mpr hv⟩

end Container

/-! ### Registrations -/

/-- Where no key comes twice, the order of the pairs does not matter for what is looked up. -/
theorem lookup_of_perm {α β : Type} [BEq α] [LawfulBEq α] {ps qs : List (α × β)} (hperm : ps.Perm qs)
    (hkeys : (ps.map (·.1)).Nodup) (key : α) : ps.lookup key = qs.lookup key := by
  induction hperm with
  | nil => rfl
  | cons p _ ih =>
      rw [List.lookup_cons, List.lookup_cons, ih (List.nodup_cons.mp hkeys).2]
  | swap p q ps =>
      obtain ⟨k, a⟩ := p
      obtain ⟨l, b⟩ := q
      have hne : l ≠ k := fun heq => (List.nodup_cons.mp hkeys).1 (heq ▸ List.mem_cons_self ..)
      by_cases hk : key = k
      · have hl : (key == l) = false := beq_eq_false_iff_ne.mpr (hk ▸ hne.symm)
        simp [List.lookup_cons, hk ▸ hl, hk]
      · have hk : (key == k) = false := beq_eq_false_iff_ne.mpr hk
        simp [List.lookup_cons, hk]
  | trans hps _ ih ih' => exact (ih hkeys).trans (ih' ((hps.map _).nodup hkeys))

namespace Registry

variable {r r' : Registry} {registrations registrations' : List (String × List Variant)}

theorem exists_register (r : Registry) (name : String) (vs : List Variant) :
    (∃ r', r.register name vs = .ok r') ↔ r.contains name = true ∨ Unambiguous vs := by
  rw [register]
  split
  · next hcontains => exact iff_of_true ⟨r, rfl⟩ (.inl hcontains)
  · next hcontains => rw [exists_map_eq_ok, Container.exists_ofVariants, or_iff_right hcontains]

theorem register_eq_error {name : String} {vs : List Variant} {e : RegistryError} :
    r.register name vs = .error e ↔ r.contains name = false ∧
      ∃ before v after, vs = before ++ v :: after ∧ Unambiguous before ∧ Collision name before v e := by
  rw [register, ← Container.ofVariants_eq_error]
  split
  · next hcontains => simp [hcontains]
  · next hcontains => rw [map_eq_error, Bool.eq_false_iff, and_iff_right hcontains]

theorem register_of_contains {name : String} (h : r.contains name = true) (vs : List Variant) :
    r.register name vs = .ok r := if_pos h

theorem contains_register {name container : String} {vs : List Variant} (h : r.register name vs = .ok r') :
    r'.contains container = true ↔ r.contains container = true ∨ container = name := by
  have hisSome := congrArg Option.isSome (container?_register h container)
  rw [Option.isSome_map, Option.isSome_or, Option.isSome_map] at hisSome
  rw [contains, contains, hisSome, Bool.or_eq_true]
  apply or_congr_right
  split
  · next hname => exact iff_of_true rfl hname
  · next hname => exact iff_of_false nofun hname

theorem resolve_eq_of_container? {container : String} (h : r.container? container = r'.container? container)
    (group : String) : r.resolve container group = r'.resolve container group := by
  rw [resolve, resolve, h]

/-- Registering a container leaves every other one as it was. -/
theorem resolve_of_register {name container : String} {vs : List Variant} (h : r.register name vs = .ok r')
    (hne : container ≠ name) (group : String) : r'.resolve container group = r.resolve container group := by
  apply resolve_eq_of_container?
  have hregister := container?_register h container
  rw [if_neg hne, Option.or_none] at hregister
  exact Option.map_injective (fun _ _ => Except.ok.inj) hregister

/-- Registrations one after the other; `build` is a run of them that starts with nothing. -/
def registerAll (r : Registry) (registrations : List (String × List Variant)) : Except RegistryError Registry :=
  registrations.foldlM (fun r registration => r.register registration.1 registration.2) r

theorem registerAll_cons_eq_ok {registration : String × List Variant} :
    r.registerAll (registration :: registrations) = .ok r' ↔
      ∃ s, r.register registration.1 registration.2 = .ok s ∧ s.registerAll registrations = .ok r' := by
  rw [registerAll, List.foldlM_cons, bind_eq_ok]
  rfl

/-- After a run of registrations, each container that was not there is indexed by the first of them. -/
theorem container?_registerAll (h : r.registerAll registrations = .ok r') (container : String) :
    (r'.container? container).map .ok = ((r.container? container).map .ok).or
      ((registrations.lookup container).map (Container.ofVariants container)) := by
  induction registrations generalizing r with
  | nil =>
      obtain rfl : r = r' := Except.ok.inj h
      rw [List.lookup_nil, Option.map_none, Option.or_none]
  | cons registration registrations ih =>
      obtain ⟨s, hs, hr'⟩ := registerAll_cons_eq_ok.mp h
      rw [ih hr', container?_register hs, Option.or_assoc, List.lookup_cons]
      congr 1
      by_cases hname : container = registration.1
      · simp [hname]
      · have hbeq : (container == registration.1) = false := beq_eq_false_iff_ne.mpr hname
        simp [hname, hbeq]

/-- A run goes well if each container is there already or comes first with variants that do not clash. -/
theorem exists_registerAll (r : Registry) (registrations : List (String × List Variant)) :
    (∃ r', r.registerAll registrations = .ok r') ↔
      ∀ name vs, registrations.lookup name = some vs → r.contains name = true ∨ Unambiguous vs := by
  induction registrations generalizing r with
  | nil => exact iff_of_true ⟨r, rfl⟩ fun _ _ => nofun
  | cons registration registrations ih =>
      obtain ⟨name, vs⟩ := registration
      have hlookup {container : String} (hne : container ≠ name) :
          ((name, vs) :: registrations).lookup container = registrations.lookup container := by
        rw [List.lookup_cons, beq_eq_false_iff_ne.mpr hne]
      constructor
      · intro h container ws hws
        obtain ⟨r', hr'⟩ := h
        obtain ⟨s, hs, hrest⟩ := registerAll_cons_eq_ok.mp hr'
        by_cases hname : container = name
        · subst hname
          obtain rfl : vs = ws := Option.some.inj (List.lookup_cons_self.symm.trans hws)
          exact (exists_register r container vs).mp ⟨s, hs⟩
        · have hws' := (ih s).mp ⟨r', hrest⟩ container ws ((hlookup hname).symm.trans hws)
          exact hws'.imp_left fun hcontains => ((contains_register hs).mp hcontains).resolve_right hname
      · intro h
        obtain ⟨s, hs⟩ := (exists_register r name vs).mpr (h name vs List.lookup_cons_self)
        have hrest : ∃ r', s.registerAll registrations = .ok r' := by
          refine (ih s).mpr fun container ws hws => ?_
          by_cases hname : container = name
          · exact .inl ((contains_register hs).mpr (.inr hname))
          · have hws' := h container ws ((hlookup hname).trans hws)
            exact hws'.imp_left fun hcontains => (contains_register hs).mpr (.inl hcontains)
        obtain ⟨r', hr'⟩ := hrest
        exact ⟨r', registerAll_cons_eq_ok.mpr ⟨s, hs, hr'⟩⟩

/-- A container that comes again changes nothing, with whatever variants it comes. -/
theorem registerAll_repeat {before : List (String × List Variant)} {name : String}
    (hname : r.contains name = true ∨ name ∈ before.map (·.1)) (vs : List Variant)
    (after : List (String × List Variant)) :
    r.registerAll (before ++ (name, vs) :: after) = r.registerAll (before ++ after) := by
  rw [registerAll, registerAll, List.foldlM_append, List.foldlM_append, ← registerAll]
  cases hbefore : r.registerAll before with
  | error e => rfl
  | ok s =>
      have hlookup : name ∈ before.map (·.1) ↔ (before.lookup name).isSome = true := by
        rw [Option.isSome_iff_ne_none, Ne, List.lookup_eq_none_iff]
        simp
      have hcontains : s.contains name = true := by
        have hisSome := congrArg Option.isSome (container?_registerAll hbefore name)
        rw [Option.isSome_map, Option.isSome_or, Option.isSome_map, Option.isSome_map] at hisSome
        rw [contains, hisSome, Bool.or_eq_true, ← hlookup]
        exact hname
      have hskip : s.registerAll ((name, vs) :: after) = s.registerAll after := by
        rw [registerAll, List.foldlM_cons, register_of_contains hcontains]
        rfl
      exact hskip

/-- The order in which different containers are registered shows neither in the outcome nor in any look-up. -/
theorem registerAll_perm (r : Registry) (hperm : registrations.Perm registrations')
    (hnames : (registrations.map (·.1)).Nodup) :
    ((∃ s, r.registerAll registrations = .ok s) ↔ ∃ s, r.registerAll registrations' = .ok s) ∧
      ∀ s s', r.registerAll registrations = .ok s → r.registerAll registrations' = .ok s' →
        ∀ container group, s.resolve container group = s'.resolve container group := by
  have hlookup := lookup_of_perm hperm hnames
  constructor
  · rw [exists_registerAll, exists_registerAll]
    simp only [hlookup]
  · intro s s' hs hs' container group
    apply resolve_eq_of_container?
    have hok : Function.Injective (Except.ok : Container → Except RegistryError Container) := fun _ _ => Except.ok.inj
    apply Option.map_injective hok
    rw [container?_registerAll hs, container?_registerAll hs', hlookup]

/-- A registration is refused exactly if the container is new and its variants clash within a group, for the first
variant that clashes with one before it; other containers are not touched, the order of registrations does not
show, and a repeated registration does nothing. -/
theorem register_unambiguous (r : Registry) (name : String) (vs : List Variant) :
    ((∃ r', r.register name vs = .ok r') ↔ r.contains name = true ∨ Unambiguous vs) ∧
    (∀ e, r.register name vs = .error e ↔ r.contains name = false ∧
      ∃ before v after, vs = before ++ v :: after ∧ Unambiguous before ∧ Collision name before v e) ∧
    (∀ r', r.register name vs = .ok r' → (∀ ws, r'.register name ws = .ok r') ∧
      ∀ container ≠ name, ∀ group, r'.resolve container group = r.resolve container group) ∧
    (∀ before ws after, r.contains name = true ∨ name ∈ before.map (·.1) →
      r.registerAll (before ++ (name, ws) :: after) = r.registerAll (before ++ after)) ∧
    ∀ registrations registrations', registrations.Perm registrations' → (registrations.map (·.1)).Nodup →
      ((∃ s, r.registerAll registrations = .ok s) ↔ ∃ s, r.registerAll registrations' = .ok s) ∧
      ∀ s s', r.registerAll registrations = .ok s → r.registerAll registrations' = .ok s' →
        ∀ container group, s.resolve container group = s'.resolve container group := by
  refine ⟨exists_register r name vs, fun e => register_eq_error, fun r' h => ⟨?_, ?_⟩, ?_, ?_⟩
  · exact register_of_contains ((contains_register h).mpr (.inr rfl))
  · exact fun container hne => resolve_of_register h hne
  · exact fun before ws after hname => registerAll_repeat hname ws after
  · exact fun registrations registrations' => registerAll_perm r

section Polls

/-- Two groups taken in turns, with one discriminant and one payload type in both. -/
def polls : List (String × List Variant) :=
  [("Envelope", [⟨"Msg", 1, .u16⟩, ⟨"Gov", 1, .u16⟩, ⟨"Msg", 2, .u8⟩]), ("Poll", [⟨"Msg", 5, .u8⟩])]

/-- The fourth variant clashes with the first in both respects, the fifth with the third. -/
def clashing : List Variant :=
  [⟨"Msg", 1, .u16⟩, ⟨"Gov", 1, .u16⟩, ⟨"Gov", 2, .u8⟩, ⟨"Msg", 1, .u16⟩, ⟨"Gov", 3, .u8⟩]

theorem register_unambiguous_polls :
    ¬Unambiguous clashing ∧
    empty.register "Ballot" clashing = .error (.duplicateDiscriminant "Ballot" "Msg" 1) ∧
    empty.register "Ballot" [⟨"Msg", 1, .u16⟩, ⟨"Gov", 2, .u16⟩, ⟨"Msg", 3, .u16⟩] =
      .error (.duplicatePayload "Ballot" "Msg" "u16") ∧
    ∃ s s', build polls = .ok s ∧ build polls.reverse = .ok s' ∧
      s.resolve "Envelope" "Msg" = s'.resolve "Envelope" "Msg" ∧
      build (polls ++ [("Poll", clashing)]) = .ok s ∧
      ∃ s'', s.register "Ballot" [⟨"Msg", 5, .u8⟩] = .ok s'' ∧
        s''.resolve "Envelope" "Gov" = s.resolve "Envelope" "Gov" := by
  obtain ⟨-, hclash, -, -, hperm⟩ := register_unambiguous empty "Ballot" clashing
  obtain ⟨-, hpayload, -⟩ :=
    register_unambiguous empty "Ballot" [⟨"Msg", 1, .u16⟩, ⟨"Gov", 2, .u16⟩, ⟨"Msg", 3, .u16⟩]
  obtain ⟨-, -, -, hagain, -⟩ := register_unambiguous empty "Poll" clashing
  refine ⟨by decide, (hclash _).mpr ⟨rfl, clashing.take 3, _, clashing.drop 4, rfl, by decide, ?_⟩, ?_, ?_⟩
  · exact .discriminant (u := ⟨"Msg", 1, .u16⟩) (by decide) rfl rfl
  · refine (hpayload _).mpr ⟨rfl, [⟨"Msg", 1, .u16⟩, ⟨"Gov", 2, .u16⟩], _, [], rfl, by decide, ?_⟩
    exact .payload (u := ⟨"Msg", 1, .u16⟩) (by decide) (by decide) rfl rfl
  · obtain ⟨s, hs⟩ : ∃ s, build polls = .ok s := ⟨_, rfl⟩
    obtain ⟨hnew, -, hother, -, -⟩ := register_unambiguous s "Ballot" [⟨"Msg", 5, .u8⟩]
    obtain ⟨houtcome, hresolve⟩ := hperm polls polls.reverse polls.reverse_perm.symm (by decide)
    obtain ⟨s', hs'⟩ := houtcome.mp ⟨s, hs⟩
    obtain ⟨s'', hs''⟩ := hnew.mpr (.inr (by decide))
    have hpoll : build (polls ++ [("Poll", clashing)]) = build (polls ++ []) :=
      hagain polls clashing [] (.inr (by decide))
    rw [List.append_nil] at hpoll
    exact ⟨s, s', hs, hs', hresolve s s' hs hs' "Envelope" "Msg", hpoll.trans hs, s'', hs'',
      (hother s'' hs'').2 "Envelope" (by decide) "Gov"⟩

end Polls

end Registry
end CanonicalWire
