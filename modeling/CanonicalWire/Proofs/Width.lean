import CanonicalWire.Proofs.Scalars

/-!
Which types take no bytes. Whether a value is written as nothing depends on its type and on the context
alone, so the items of one sequence either all take bytes or none of them does.
-/

namespace CanonicalWire

/-- The values of the type that are written take no bytes. -/
def Scalar.Weightless : Scalar → Context → Prop
  | .uint n, _ => n = 0
  | .text _, ctx => ctx.fixedLen = some 0
  | .bytes, ctx => ctx.fixedLen = some 0
  | _, _ => False

mutual
/-- The values of the type that are written take no bytes. -/
def Ty.Weightless : Ty → Context → Prop
  | .scalar s, ctx => s.Weightless ctx
  | .option t, ctx => ctx.optional = false ∧ t.Weightless ctx
  | .pointer _ t, ctx => t.Weightless ctx
  | .sequence _ t, ctx => ∃ n, ctx.fixedLen = some n ∧ (n = 0 ∨ t.Weightless ctx.element)
  | .deque t, ctx => ∃ n, ctx.fixedLen = some n ∧ (n = 0 ∨ t.Weightless ctx.element)
  | .array t n, ctx => n = 0 ∨ t.Weightless ctx.element
  | .map _ _ _, _ => False
  | .set _ _, _ => False
  | .record k fs, ctx => fs.Weightless k.container ctx
  | .union _ _, _ => False
  | .recursive _, _ => False
/-- No field that is written takes any bytes. -/
def Fields.Weightless : Fields → Option String → Context → Prop
  | .nil, _, _ => True
  | .cons _ declared t rest, container, ctx =>
      (declared.skips = false → ∃ fieldCtx, declared.enter container ctx = .ok fieldCtx ∧ t.Weightless fieldCtx) ∧
        rest.Weightless container ctx
end

/-- The context of a field is that of its directives, and perhaps an enum group. -/
theorem Context.field_eq {ctx fieldCtx : Context} {container : Option String} {d : Directives}
    (h : ctx.field container d = .ok fieldCtx) :
    ∃ variants, fieldCtx = { ctx.withDirectives d with variants := variants } := by
  unfold Context.field at h
  split at h
  · next name group _ =>
      cases hresolve : ctx.registry.resolve name group with
      | error e =>
          rw [hresolve] at h
          cases h
      | ok m =>
          rw [hresolve] at h
          cases h
          exact ⟨some m, rfl⟩
  · cases h
    exact ⟨none, rfl⟩

theorem Declaration.enter_eq {declared : Declaration} {container : Option String} {ctx fieldCtx : Context}
    (h : declared.enter container ctx = .ok fieldCtx) :
    ∃ d variants, declared = .valid d ∧ fieldCtx = { ctx.withDirectives d with variants := variants } := by
  cases declared with
  | faulty e => cases h
  | valid d =>
      change (ctx.field container d).mapError CodecError.registry = .ok fieldCtx at h
      cases hfield : ctx.field container d with
      | error e =>
          rw [hfield] at h
          cases h
      | ok c =>
          rw [hfield] at h
          cases h
          obtain ⟨variants, hc⟩ := Context.field_eq hfield
          exact ⟨d, variants, rfl, hc⟩

theorem Declaration.directives_enter {d : Directives} {container : Option String} {ctx fieldCtx : Context}
    (h : (Declaration.valid d).enter container ctx = .ok fieldCtx) :
    fieldCtx.optional = d.optional ∧ fieldCtx.fixedLen = d.fixedLen := by
  obtain ⟨_, variants, ⟨⟩, rfl⟩ := Declaration.enter_eq h
  exact ⟨rfl, rfl⟩

theorem digitsLE_ne_nil {width : Nat} (h : 0 < width) (n : Nat) : digitsLE width n ≠ [] := by
  rw [← List.length_pos_iff, length_digitsLE]
  exact h

theorem digitsLE_prefix_append_ne_nil (n : Nat) (b : Bytes) : digitsLE prefixWidth n ++ b ≠ [] := by
  intro h
  have hdigits : digitsLE prefixWidth n = [] := (List.append_eq_nil_iff.mp h).1
  exact digitsLE_ne_nil (by decide) n hdigits

namespace Encode

/-- The number of items takes no bytes exactly where the context fixes it. -/
theorem writeCount_nil_iff {len : Nat} {ctx : Context} {u : Bytes} (h : (writeCount len ctx).bytes = .ok u) :
    u = [] ↔ ctx.fixedLen = some len := by
  rw [writeCount] at h
  split at h
  · next expected hfixed =>
      split at h
      · next heq =>
          cases h
          simp [hfixed, heq]
      · cases h
  · next hfixed =>
      obtain ⟨-, rfl⟩ := bytes_writeLen_eq_ok.mp h
      simp [hfixed, digitsLE_ne_nil (show 0 < prefixWidth by decide)]

theorem fixedLen_unique {len n : Nat} {ctx : Context} {u : Bytes} (h : (writeCount len ctx).bytes = .ok u)
    (hfixed : ctx.fixedLen = some n) : n = len := by
  rw [writeCount, hfixed] at h
  simp only at h
  split at h
  · next heq => exact heq.symm
  · cases h

/-- With their number, items take no bytes only where the context fixes it, so `q` speaks of the fixed one. -/
theorem writeCount_append_nil_iff {len : Nat} {ctx : Context} {u v : Bytes} {q : Nat → Prop}
    (hu : (writeCount len ctx).bytes = .ok u) (hv : v = [] ↔ q len) :
    u ++ v = [] ↔ ∃ n, ctx.fixedLen = some n ∧ q n := by
  rw [List.append_eq_nil_iff, writeCount_nil_iff hu, hv]
  constructor
  · intro h
    exact ⟨len, h⟩
  · intro h
    obtain ⟨n, hfixed, hn⟩ := h
    cases fixedLen_unique hu hfixed
    exact ⟨hfixed, hn⟩

theorem writeByteRun_nil_iff {bs b : Bytes} {ctx : Context} (h : (writeByteRun bs ctx).bytes = .ok b) :
    b = [] ↔ ctx.fixedLen = some 0 := by
  obtain ⟨-, u, hu, rfl⟩ := bytes_writeByteRun_eq_ok.mp h
  rw [writeCount_append_nil_iff (q := (· = 0)) hu List.length_eq_zero_iff.symm]
  simp

theorem writeNatural_ne_nil {n : Nat} {b : Bytes} (h : (writeNatural n).bytes = .ok b) : b ≠ [] := by
  obtain ⟨-, rfl⟩ := bytes_writeNatural_eq_ok.mp h
  exact digitsLE_ne_nil (by decide) n

theorem writeInteger_ne_nil {x : Int} {b : Bytes} (h : (writeInteger x).bytes = .ok b) : b ≠ [] := by
  obtain ⟨n, -, hn⟩ := bytes_writeInteger_eq_ok.mp h
  exact writeNatural_ne_nil hn

theorem writeUuid_ne_nil {x : Uuid} {ctx : Context} {b : Bytes} (h : (writeUuid x ctx).bytes = .ok b) :
    b ≠ [] := by
  obtain ⟨-, rfl⟩ := bytes_writeUuid_eq_ok.mp h
  rw [← List.length_pos_iff, Block.length_eq]
  decide

end Encode

theorem Scalar.bytes_nil_iff {s : Scalar} {x : s.Carrier} {ctx : Context} {b : Bytes}
    (h : (s.encode x ctx).bytes = .ok b) : b = [] ↔ s.Weightless ctx := by
  have never (hb : b ≠ []) (hs : s.Weightless ctx = False) : b = [] ↔ s.Weightless ctx := by simp [hb, hs]
  cases s with
  | bool =>
      cases h
      exact never (by simp) rfl
  | int k =>
      cases h
      exact never (digitsLE_ne_nil (by cases k <;> decide) _) rfl
  | u128 =>
      cases (Encode.bytes_writeU128 _).symm.trans h
      exact never (digitsLE_ne_nil (by decide) _) rfl
  | i128 =>
      simp only [Scalar.encode, Encode.writeI128] at h
      split at h
      · cases h
      · cases (Encode.bytes_writeU128 _).symm.trans h
        exact never (digitsLE_ne_nil (by decide) _) rfl
  | uint n =>
      cases h
      show (Uint.toLE x).bytes = [] ↔ n = 0
      rw [← List.length_eq_zero_iff, (Uint.toLE x).length_eq]
  | natural => exact never (Encode.writeNatural_ne_nil h) rfl
  | integer => exact never (Encode.writeInteger_ne_nil h) rfl
  | decimal => exact never (Encode.writeInteger_ne_nil (Encode.bytes_writeDecimal_eq_ok.mp h).2) rfl
  | text | bytes => exact Encode.writeByteRun_nil_iff h
  | uuid => exact never (Encode.writeUuid_ne_nil h) rfl

/-! ### Types that take bytes -/

theorem Scalar.not_weightless_of_takesBytes {s : Scalar} {ctx : Context} (h : s.takesBytes ctx.fixedLen = true) :
    ¬s.Weightless ctx := by
  cases s with
  | uint n =>
      have hpos : 0 < n := of_decide_eq_true h
      exact hpos.ne'
  | text | bytes =>
      have hfixed : ctx.fixedLen ≠ some 0 := of_decide_eq_true h
      exact hfixed
  | _ => exact id

theorem Fields.not_weightless_of_guarded : (fs : Fields) → (container : Option String) → (ctx : Context) →
    (∀ t ∈ fs.types, ∀ ctx : Context, t.guarded ctx.optional ctx.fixedLen = true → ¬t.Weightless ctx) →
      fs.guarded = true → ¬fs.Weightless container ctx
  | .cons _ (.faulty _) _ _, _, _, _, _ => by
      rintro ⟨hfield, -⟩
      obtain ⟨_, henter, -⟩ := hfield rfl
      cases henter
  | .cons _ (.valid d) t rest, container, ctx, ih, h => by
      obtain ⟨iht, ihrest⟩ := List.forall_mem_cons.mp ih
      rintro ⟨hfield, hrest⟩
      rw [guarded] at h
      split at h
      · exact rest.not_weightless_of_guarded container ctx ihrest h hrest
      · next hskip =>
          obtain ⟨fieldCtx, henter, ht⟩ := hfield (by simpa [Declaration.skips] using hskip)
          obtain ⟨hoptional, hfixed⟩ := Declaration.directives_enter henter
          simp only [Bool.or_eq_true, Bool.and_eq_true] at h
          rcases h with h | h
          · exact iht fieldCtx (by rwa [hoptional, hfixed]) ht
          · exact rest.not_weightless_of_guarded container ctx ihrest h.2 hrest

theorem Ty.not_weightless_of_guarded (t : Ty) (ctx : Context) (h : t.guarded ctx.optional ctx.fixedLen = true) :
    ¬t.Weightless ctx := by
  induction t generalizing ctx with
  | scalar s => exact Scalar.not_weightless_of_takesBytes h
  | option t ih =>
      rintro ⟨hoptional, ht⟩
      rw [guarded, hoptional, Bool.false_or, ← hoptional] at h
      exact ih ctx h ht
  | pointer p t ih => exact ih ctx h
  | sequence k t ih | deque t ih =>
      rintro ⟨n, hfixed, hn⟩
      simp only [guarded, hfixed, Option.all_some, Bool.and_eq_true, decide_eq_true_eq] at h
      exact hn.elim h.1.ne' (ih ctx.element h.2)
  | array t n ih =>
      simp only [guarded, Bool.and_eq_true, decide_eq_true_eq] at h
      exact fun hn => hn.elim h.1.ne' (ih ctx.element h.2)
  | map | set | union => exact id
  | record k fs ih => exact fs.not_weightless_of_guarded _ ctx ih h
  | recursive r => cases h

variable [Definitions]

theorem Wires.flatten_nil_iff {t : Ty} {ctx : Context} {xs : List (Value t)} {bs : List Bytes} {p : Prop}
    (h : Wires ctx xs bs) (ih : ∀ x ∈ xs, ∀ b, x.wire ctx = .ok b → (b = [] ↔ p)) :
    bs.flatten = [] ↔ xs.length = 0 ∨ p := by
  induction h with
  | nil => simp
  | @cons x b xs bs hx hxs ihxs =>
      obtain ⟨ihx, ihrest⟩ := List.forall_mem_cons.mp ih
      rw [List.flatten_cons, List.append_eq_nil_iff, ihx b hx, ihxs ihrest]
      simp only [List.length_cons, Nat.add_one_ne_zero, false_or]
      exact and_iff_left_of_imp .inr

theorem Items.wire_nil_iff {t : Ty} {n : Nat} {xs : Items t n} {ctx : Context} {b : Bytes} {p : Prop}
    (h : xs.wire ctx = .ok b) (ih : ∀ x ∈ xs.toList, ∀ b, x.wire ctx = .ok b → (b = [] ↔ p)) :
    b = [] ↔ n = 0 ∨ p := by
  obtain ⟨-, bs, hbs, rfl⟩ := Items.wire_eq_ok.mp h
  rw [hbs.flatten_nil_iff ih, xs.length_toList]

theorem Record.wire_nil_iff : {fs : Fields} → (xs : Record fs) → (container : Option String) → (ctx : Context) →
    xs.All (fun t x => ∀ ctx b, x.wire ctx = .ok b → (b = [] ↔ t.Weightless ctx)) →
      ∀ b, xs.wire container ctx = .ok b → (b = [] ↔ fs.Weightless container ctx)
  | .nil, .nil, _, _, _, _, h => by
      cases h
      simp [Fields.Weightless]
  | .cons .., .cons x xs, container, ctx, ih, b, h => by
      obtain ⟨ihx, ihxs⟩ := ih
      have hrest := xs.wire_nil_iff container ctx ihxs
      rw [Record.wire_cons] at h
      rw [Fields.Weightless]
      split at h
      · next hskip => simp [hrest b h, hskip]
      · next hskip =>
          obtain ⟨fieldCtx, u, v, hctx, hu, hv, rfl⟩ := h
          rw [List.append_eq_nil_iff, ihx fieldCtx u hu, hrest v hv, hctx]
          simp [hskip]
  | .cons .., .omitted _ xs, container, ctx, ih, b, h => by
      obtain ⟨hskip, hrest⟩ := Record.wire_omitted.mp h
      rw [Fields.Weightless, xs.wire_nil_iff container ctx ih b hrest]
      simp [hskip]

theorem Value.wire_nil_iff {t : Ty} (x : Value t) (ctx : Context) (b : Bytes) (h : x.wire ctx = .ok b) :
    b = [] ↔ t.Weightless ctx := by
  induction x generalizing ctx b with
  | scalar x => exact Scalar.bytes_nil_iff h
  | absent =>
      obtain ⟨hoptional, rfl⟩ := wire_absent.mp h
      simp [Ty.Weightless, hoptional]
  | present x ih =>
      rw [wire_present] at h
      rw [Ty.Weightless]
      split at h
      · next hoptional =>
          obtain ⟨c, -, rfl⟩ := h
          simp [hoptional]
      · next hoptional => simp [ih ctx b h, hoptional]
  | pointer x ih => exact ih ctx b h
  | sequence xs ih =>
      obtain ⟨u, v, hu, hv, rfl⟩ := wire_sequence.mp h
      exact Encode.writeCount_append_nil_iff hu (Items.wire_nil_iff hv fun x hx => ih x hx _)
  | deque front back ihfront ihback =>
      obtain ⟨-, u, bs, hu, hbs, rfl⟩ := wire_deque.mp h
      have hall := List.forall_mem_append.mpr ⟨ihfront, ihback⟩
      have hnil := hbs.flatten_nil_iff fun x hx => hall x hx ctx.element
      rw [List.length_append, front.length_toList, back.length_toList] at hnil
      exact Encode.writeCount_append_nil_iff hu hnil
  | array xs ih => exact Items.wire_nil_iff h fun x hx => ih x hx _
  | map es ih =>
      obtain ⟨ps, u, -, hu, rfl⟩ := wire_map.mp h
      obtain ⟨-, rfl⟩ := Encode.bytes_writeLen_eq_ok.mp hu
      exact iff_of_false (digitsLE_prefix_append_ne_nil _ _) id
  | set xs ih =>
      obtain ⟨bs, u, -, hu, rfl⟩ := wire_set.mp h
      obtain ⟨-, rfl⟩ := Encode.bytes_writeLen_eq_ok.mp hu
      exact iff_of_false (digitsLE_prefix_append_ne_nil _ _) id
  | record xs ih => exact xs.wire_nil_iff _ ctx ih b h
  | union c ih =>
      obtain ⟨d, v, -, -, rfl⟩ := wire_union.mp h
      exact iff_of_false (digitsLE_prefix_append_ne_nil _ _) id
  | @recursive r x ih =>
      exact iff_of_false (mt (ih ctx b h).mp (r.body.not_weightless_of_guarded ctx (r.guarded_body _ _))) id

/-- The items of one type in one context either all take bytes or none of them does. -/
theorem Wires.nil_iff {t : Ty} {ctx : Context} {xs : List (Value t)} {bs : List Bytes} (h : Wires ctx xs bs) :
    ∀ b ∈ bs, b = [] ↔ t.Weightless ctx := by
  induction h with
  | nil => exact nofun
  | cons hx _ ih => exact List.forall_mem_cons.mpr ⟨Value.wire_nil_iff _ ctx _ hx, ih⟩

end CanonicalWire
