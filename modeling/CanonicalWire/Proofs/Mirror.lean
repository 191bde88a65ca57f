import CanonicalWire.Derive.Plan
import CanonicalWire.Encode
import CanonicalWire.Proofs.Outcomes

/-!
Derived encoders and decoders. The encoder and the decoder of one item are derived from it or refused for it
together, and what the one writes is what the other reads: the same fields of a record, in the same order and
contexts, and the same cases of a union with the same payloads.
-/

namespace CanonicalWire.Derive

/-! ### Contexts of fields -/

namespace FieldContext

/-- The context that a derived implementation for a container enters a field in. -/
def enter (c : FieldContext) (container : String) (ctx : Context) : Except RegistryError Context :=
  if c.resolves then ctx.field (some container) c.directives else .ok (ctx.withDirectives c.directives)

/-- It is the context in which the codec itself enters the field of a declared record. -/
theorem enter_ofDirectives (d : Directives) (container : String) (ctx : Context) :
    ((ofDirectives d).enter container ctx).mapError CodecError.registry =
      (Declaration.valid d).enter (some container) ctx := by
  have henter : (ofDirectives d).enter container ctx = ctx.field (some container) d := by
    rw [enter]
    split
    case isTrue => rfl
    case isFalse h =>
      have hgroup : d.enumGroup = none := by simpa [ofDirectives] using h
      simp only [Context.field, ofDirectives, hgroup]
  rw [henter]
  rfl

end FieldContext

theorem borrows_eq_false {g : Generics} : g.borrows = false ↔ ∀ p ∈ g.parameters, p.isLifetime = false := by
  simp [Generics.borrows]

/-! ### Records -/

namespace Layout

theorem map_members (l : Layout) : l.members.map (·.2) = l.fields := by
  cases l with
  | named | unit => rfl
  | tuple fields =>
      apply List.ext_getElem
      · simp [members, Layout.fields]
      · intro i hi hi'
        simp [members, Layout.fields]

end Layout

namespace RecordItem

/-- The directives of all fields of a record that passes. -/
def check (r : RecordItem) : Except DeriveError (List Directives) := do
  let directives ← r.layout.fields.mapM Field.directives
  r.checkGenerics directives
  return directives

theorem map_check (r : RecordItem) (plan : List Directives → Plan) :
    r.check.map plan = do
      let directives ← r.layout.fields.mapM Field.directives
      r.checkGenerics directives
      return plan directives := by
  rw [check]
  cases r.layout.fields.mapM Field.directives with
  | error e => rfl
  | ok directives =>
      show Except.map _ (r.checkGenerics directives >>= _) = (r.checkGenerics directives >>= _)
      cases r.checkGenerics directives <;> rfl

theorem encode_eq (r : RecordItem) : r.encode = r.check.map fun directives =>
    [⟨.encoder, r.generics.apply r.name, r.generics.addBounds (bounds .encoder directives),
      .writes (writes r.layout.members directives)⟩] := (r.map_check _).symm

theorem decode_eq (r : RecordItem) : r.decode = r.check.map fun directives =>
    [⟨.decoder, r.generics.apply r.name, r.generics.addBounds (bounds .decoder directives),
      .reads (reads r.layout directives)⟩] := (r.map_check _).symm

theorem checkGenerics_eq_ok {r : RecordItem} {directives : List Directives} {u : Unit} :
    r.checkGenerics directives = .ok u ↔
      ((∃ d ∈ directives, d.enumGroup.isSome = true) → ∀ p ∈ r.generics.parameters, p.isLifetime = false) := by
  rw [checkGenerics, ← borrows_eq_false, hasEnumField, ← List.any_eq_true]
  cases directives.any (·.enumGroup.isSome) <;> cases r.generics.borrows <;> simp

theorem check_eq_ok {r : RecordItem} {directives : List Directives} :
    r.check = .ok directives ↔ List.Forall₂ (fun f d => f.directives = .ok d) r.layout.fields directives ∧
      ((∃ d ∈ directives, d.enumGroup.isSome = true) → ∀ p ∈ r.generics.parameters, p.isLifetime = false) := by
  rw [check, bind_eq_ok]
  simp only [mapM_eq_ok, bind_eq_ok, checkGenerics_eq_ok]
  constructor
  · rintro ⟨_, hfields, -, hgenerics, ⟨⟩⟩
    exact ⟨hfields, hgenerics⟩
  · rintro ⟨hfields, hgenerics⟩
    exact ⟨directives, hfields, (), hgenerics, rfl⟩

/-- A field is read in the context of its directives, unless it is skipped. -/
def readOf (p : (String × Field) × Directives) : String × Read :=
  (p.1.1, if p.2.skip then .default else .decode p.1.2.type ⟨p.2.enumGroup.isSome, p.2⟩)

def writeOf (p : (String × Field) × Directives) : Write := ⟨p.1.1, ⟨p.2.enumGroup.isSome, p.2⟩⟩

theorem writes_eq : (fields : List (String × Field)) → (directives : List Directives) →
    writes fields directives = ((fields.zip directives).filter fun p => !p.2.skip).map writeOf
  | [], _ | _ :: _, [] => rfl
  | f :: fields, d :: directives => by
      rw [writes, writes_eq fields directives, List.zip_cons_cons, List.filter_cons]
      cases hskip : d.skip <;> simp [writeOf, FieldContext.ofDirectives]

end RecordItem

namespace Reads

/-- How each field comes to its value, with the member that it is reached by. -/
def members : Reads → List (String × Read)
  | .named reads => reads
  | .tuple reads => reads.mapIdx fun i read => (toString i, read)
  | .unit => []

/-- The fields that are decoded, as fields that are written. -/
def visits (rs : Reads) : List Write :=
  rs.members.filterMap fun p =>
    match p.2 with
    | .default => none
    | .decode _ context => some ⟨p.1, context⟩

end Reads

namespace RecordItem

theorem members_reads (l : Layout) (directives : List Directives) :
    (reads l directives).members = (l.members.zip directives).map readOf := by
  cases l with
  | unit => rfl
  | named fields | tuple fields =>
      apply List.ext_getElem
      · simp [reads, Reads.members, Layout.members]
      · intro i hi hi'
        simp [reads, Reads.members, Layout.members, readOf, read, FieldContext.ofDirectives]

theorem visits_of_members {rs : Reads} {fields : List ((String × Field) × Directives)}
    (h : rs.members = fields.map readOf) : rs.visits = (fields.filter fun p => !p.2.skip).map writeOf := by
  rw [Reads.visits, h, List.filterMap_map, ← List.filterMap_eq_map, List.filterMap_filter]
  apply congrArg (List.filterMap · _)
  funext p
  cases hskip : p.2.skip <;> simp [readOf, writeOf, hskip]

theorem enter_of_mem_writes {fields : List (String × Field)} {directives : List Directives} {w : Write}
    (hw : w ∈ writes fields directives) (container : String) (ctx : Context) :
    (w.context.enter container ctx).mapError CodecError.registry =
      (Declaration.valid w.context.directives).enter (some container) ctx := by
  rw [writes_eq] at hw
  obtain ⟨p, -, rfl⟩ := List.mem_map.mp hw
  exact FieldContext.enter_ofDirectives p.2 container ctx

end RecordItem

/-! ### Unions -/

theorem CaseItem.payload_eq_ok {c : CaseItem} {payload : String} :
    c.payload = .ok payload ↔ ∃ f, c.layout = .tuple [f] ∧ f.type = payload := by
  rw [CaseItem.payload]
  split
  case h_1 f hlayout => simp [hlayout]
  case h_2 hnot =>
    constructor
    · nofun
    · rintro ⟨f, hlayout, -⟩
      exact absurd hlayout (hnot f)

namespace UnionItem

/-- The payload types of all cases of a union that passes. -/
def check (u : UnionItem) : Except DeriveError (List String) := do
  u.checkGenerics
  let payloads ← u.cases.mapM CaseItem.payload
  if payloads.isEmpty then throw .casesNeeded
  return payloads

/-- The cases under their full names, with their payload types. -/
def arms (u : UnionItem) (payloads : List String) : List (String × String) :=
  List.zipWith (fun c payload => (u.name ++ "::" ++ c.name, payload)) u.cases payloads

theorem map_check (u : UnionItem) {γ : Type} (g : CaseItem → String → γ) (plan : List γ → Plan) :
    (u.check.map fun payloads => plan (List.zipWith g u.cases payloads)) = do
      u.checkGenerics
      let parts ← u.cases.mapM fun c => c.payload.map (g c)
      if parts.isEmpty then throw .casesNeeded
      return plan parts := by
  rw [check, mapM_map g]
  cases u.checkGenerics with
  | error e => rfl
  | ok _ =>
      cases hpayloads : u.cases.mapM CaseItem.payload with
      | error e => rfl
      | ok payloads =>
          -- no case is lost, so there are parts exactly if there are payloads
          have hempty : (List.zipWith g u.cases payloads).isEmpty = payloads.isEmpty := by
            have hlength := (mapM_eq_ok.mp hpayloads).length_eq
            cases payloads <;> cases hcases : u.cases <;> simp_all
          show Except.map _ (if payloads.isEmpty then _ else _) = (if List.isEmpty _ then _ else _)
          rw [hempty]
          cases payloads.isEmpty <;> rfl

theorem encode_eq (u : UnionItem) : u.encode = u.check.map fun payloads =>
    [⟨.union, u.generics.apply u.name, u.generics.addBounds [Interface.encoder.name, ownedBound],
        .cases (u.arms payloads) (u.arms payloads) ((u.arms payloads).map Prod.fst)⟩,
      ⟨.encoder, u.generics.apply u.name, u.generics.addBounds [Interface.encoder.name, ownedBound],
        .writesUnion⟩] := (u.map_check _ _).symm

theorem decode_eq (u : UnionItem) : u.decode = u.check.map fun payloads =>
    [⟨.unionDecoder, u.generics.apply u.name, u.generics.addBounds [Interface.decoder.name, ownedBound],
        .checks ((u.arms payloads).map fun arm => (arm.1, arm.2, arm.2))⟩,
      ⟨.decoder, u.generics.apply u.name, u.generics.addBounds [Interface.decoder.name, ownedBound],
        .readsUnion⟩] := by
  simp only [arms, List.map_zipWith]
  exact (u.map_check _ _).symm

theorem check_eq_ok {u : UnionItem} {payloads : List String} :
    u.check = .ok payloads ↔ (∀ p ∈ u.generics.parameters, p.isLifetime = false) ∧ u.cases ≠ [] ∧
      List.Forall₂ (fun c payload => ∃ f, c.layout = .tuple [f] ∧ f.type = payload) u.cases payloads := by
  have hgenerics {v : Unit} : u.checkGenerics = .ok v ↔ ∀ p ∈ u.generics.parameters, p.isLifetime = false := by
    rw [checkGenerics, ← borrows_eq_false]
    cases u.generics.borrows <;> simp
  rw [check]
  simp only [bind_eq_ok, mapM_eq_ok, CaseItem.payload_eq_ok, hgenerics]
  constructor
  · rintro ⟨_, hborrows, parts, hparts, hif⟩
    obtain ⟨hne, ⟨⟩⟩ := throw_if_eq_ok.mp hif
    refine ⟨hborrows, fun hcases => ?_, hparts⟩
    rw [hcases] at hparts
    obtain rfl := List.forall₂_nil_left_iff.mp hparts
    cases hne
  · rintro ⟨hborrows, hcases, hparts⟩
    refine ⟨(), hborrows, payloads, hparts, throw_if_eq_ok.mpr ⟨?_, rfl⟩⟩
    apply List.isEmpty_eq_false_iff.mpr
    rintro rfl
    exact hcases (List.forall₂_nil_right_iff.mp hparts)

end UnionItem

/-! ### Items -/

namespace Item

/-- What an item needs for an encoder or a decoder to be derived from it. A skipped field counts as any other. -/
def Derivable : Item → Prop
  | .record r => (∀ f ∈ r.layout.fields, ∃ d, f.directives = .ok d) ∧
      ((∃ f ∈ r.layout.fields, ∃ d, f.directives = .ok d ∧ d.enumGroup.isSome = true) →
        ∀ p ∈ r.generics.parameters, p.isLifetime = false)
  | .union u => (∀ p ∈ u.generics.parameters, p.isLifetime = false) ∧ u.cases ≠ [] ∧
      ∀ c ∈ u.cases, ∃ f, c.layout = .tuple [f]

/-- What an encoder and a decoder do that mirror each other. -/
inductive Mirrored : Item → Plan → Plan → Prop
  /-- The fields that are not skipped are written in order. All fields are read in order, those that are skipped by
  their default, and those that are decoded are the ones that are written. Either side enters such a field in the
  context in which the codec itself enters a field with these directives in a record of this name. -/
  | record {r : RecordItem} {directives : List Directives} {type : String} {g h : Generics} {ws : List Write}
      {rs : Reads} (hdirectives : List.Forall₂ (fun m d => m.2.directives = .ok d) r.layout.members directives)
      (hwrites : ws = ((r.layout.members.zip directives).filter fun p => !p.2.skip).map RecordItem.writeOf)
      (hreads : rs.members = (r.layout.members.zip directives).map RecordItem.readOf)
      (hsame : rs.visits = ws)
      (henter : ∀ w ∈ ws, ∀ ctx, (w.context.enter r.name ctx).mapError CodecError.registry =
        (Declaration.valid w.context.directives).enter (some r.name) ctx) :
      Mirrored (.record r) [⟨.encoder, type, g, .writes ws⟩] [⟨.decoder, type, h, .reads rs⟩]
  /-- All cases are listed in order, each with its payload's type to compare with, to name, to write and to read. -/
  | union {u : UnionItem} {payloads : List String} {type : String} {g h : Generics}
      (hpayloads : List.Forall₂ (fun c payload => ∃ f, c.layout = .tuple [f] ∧ f.type = payload) u.cases payloads) :
      Mirrored (.union u)
        [⟨.union, type, g, .cases (u.arms payloads) (u.arms payloads) ((u.arms payloads).map Prod.fst)⟩,
          ⟨.encoder, type, g, .writesUnion⟩]
        [⟨.unionDecoder, type, h, .checks ((u.arms payloads).map fun arm => (arm.1, arm.2, arm.2))⟩,
          ⟨.decoder, type, h, .readsUnion⟩]

end Item

namespace RecordItem

variable {r : RecordItem}

theorem exists_check : (∃ directives, r.check = .ok directives) ↔ Item.Derivable (.record r) := by
  simp only [check_eq_ok]
  constructor
  · rintro ⟨directives, hfields, hgenerics⟩
    exact ⟨exists_forall₂.mp ⟨directives, hfields⟩, fun h => hgenerics ((exists_mem_iff hfields).mpr h)⟩
  · rintro ⟨hfields, hgenerics⟩
    obtain ⟨directives, hdirectives⟩ := exists_forall₂.mpr hfields
    exact ⟨directives, hdirectives, fun h => hgenerics ((exists_mem_iff hdirectives).mp h)⟩

theorem mirrored {p q : Plan} (hp : r.encode = .ok p) (hq : r.decode = .ok q) : Item.Mirrored (.record r) p q := by
  rw [encode_eq] at hp
  obtain ⟨directives, hcheck, rfl⟩ := map_eq_ok.mp hp
  rw [decode_eq, hcheck] at hq
  cases hq
  have hdirectives := (check_eq_ok.mp hcheck).1
  rw [← r.layout.map_members, List.forall₂_map_left_iff] at hdirectives
  have hreads := members_reads r.layout directives
  have hwrites := writes_eq r.layout.members directives
  exact .record hdirectives hwrites hreads ((visits_of_members hreads).trans hwrites.symm)
    fun w hw ctx => enter_of_mem_writes hw r.name ctx

end RecordItem

namespace UnionItem

variable {u : UnionItem}

theorem exists_check : (∃ payloads, u.check = .ok payloads) ↔ Item.Derivable (.union u) := by
  have hcase (c : CaseItem) : (∃ payload, ∃ f, c.layout = .tuple [f] ∧ f.type = payload) ↔
      ∃ f, c.layout = .tuple [f] := by
    simp
  simp only [check_eq_ok, exists_and_left, exists_forall₂, hcase]
  rfl

theorem mirrored {p q : Plan} (hp : u.encode = .ok p) (hq : u.decode = .ok q) : Item.Mirrored (.union u) p q := by
  rw [encode_eq] at hp
  obtain ⟨payloads, hcheck, rfl⟩ := map_eq_ok.mp hp
  rw [decode_eq, hcheck] at hq
  cases hq
  exact .union (check_eq_ok.mp hcheck).2.2

end UnionItem

/-- An encoder and a decoder are derived from the same items and refused with the same error. Where they are derived,
they mirror each other. -/
theorem Item.derive_mirrored (i : Item) :
    (∀ e, i.encode = .error e ↔ i.decode = .error e) ∧
      ((∃ p, i.encode = .ok p) ↔ i.Derivable) ∧ ((∃ q, i.decode = .ok q) ↔ i.Derivable) ∧
      ∀ p q, i.encode = .ok p → i.decode = .ok q → i.Mirrored p q := by
  cases i with
  | record r =>
      simp only [encode, decode]
      refine ⟨fun e => ?_, ?_, ?_, fun p q => RecordItem.mirrored⟩
      · rw [r.encode_eq, r.decode_eq, map_eq_error, map_eq_error]
      · rw [r.encode_eq, exists_map_eq_ok, RecordItem.exists_check]
      · rw [r.decode_eq, exists_map_eq_ok, RecordItem.exists_check]
  | union u =>
      simp only [encode, decode]
      refine ⟨fun e => ?_, ?_, ?_, fun p q => UnionItem.mirrored⟩
      · rw [u.encode_eq, u.decode_eq, map_eq_error, map_eq_error]
      · rw [u.encode_eq, exists_map_eq_ok, UnionItem.exists_check]
      · rw [u.decode_eq, exists_map_eq_ok, UnionItem.exists_check]

section Parcel

/-- A tuple record whose first field is skipped. -/
def parcel : RecordItem where
  name := "Parcel"
  layout := .tuple [⟨"u8", [⟨"canon", some [("skip", none)]⟩]⟩,
    ⟨"Msg", [⟨"canon", some [("enum", some (.text "Group"))]⟩]⟩]
  generics := ⟨[], []⟩

def parcelContext : FieldContext := ⟨true, { enumGroup := some "Group" }⟩

/-- The second field keeps its place. -/
theorem Item.derive_mirrored_parcel :
    (Item.record parcel).Mirrored
      [⟨.encoder, "Parcel", ⟨[], []⟩, .writes [⟨"1", parcelContext⟩]⟩]
      [⟨.decoder, "Parcel", ⟨[], []⟩, .reads (.tuple [.default, .decode "Msg" parcelContext])⟩] :=
  (Item.derive_mirrored (.record parcel)).2.2.2 _ _ rfl rfl

end Parcel

end CanonicalWire.Derive
