import CanonicalWire.Proofs.Ascending

/-!
The order in which maps and sets list what they hold, what skipped fields hold, and where deques are cut, does
not show in the bytes. Values that differ only in these ways are related part by part; the context goes along,
since it decides how keys are written and so whether two of them are written alike.
-/

namespace CanonicalWire

theorem Context.present_eq {ctx : Context} (h : ctx.optional = false) : ctx.present = ctx := by
  rw [Context.present, ← h]

section Values

variable [Definitions]

/-- No two of the values are written alike. -/
def WrittenApart {t : Ty} (ctx : Context) (xs : List (Value t)) : Prop := ∀ bs, Wires ctx xs bs → bs.Nodup

theorem writtenApart_iff {t : Ty} {ctx : Context} {xs : List (Value t)} {bs : List Bytes} (h : Wires ctx xs bs) :
    WrittenApart ctx xs ↔ bs.Nodup := by
  refine ⟨fun hapart => hapart bs h, fun hbs cs hcs => ?_⟩
  have hself : List.Forall₂ Value.WrittenAlike xs xs :=
    List.forall₂_same.mpr fun x _ ctx b c hb hc => Except.ok.inj (hb.symm.trans hc)
  rwa [← h.unique hself hcs]

mutual
/-- The values differ at most in the order in which entries of maps and items of sets are listed, where no
two keys or items are written alike, in what skipped fields hold, and in where deques are cut. A deque of
`u8` that exceeds the ceiling is cut in the same place, since each part is held to the ceiling by itself. -/
def Value.Relisted : {t : Ty} → Value t → Value t → Context → Prop
  | .scalar _, .scalar x, .scalar y, _ => x = y
  | .option _, .absent, .absent, _ => True
  | .option _, .present x, .present y, ctx => x.Relisted y ctx.present
  | .option _, .absent, .present _, _ => False
  | .option _, .present _, .absent, _ => False
  | .pointer _ _, .pointer x, .pointer y, ctx => x.Relisted y ctx
  | .sequence _ _, .sequence xs, .sequence ys, ctx => xs.Relisted ys.toList ctx.element
  | .deque t, .deque (m := m) (n := n) front back, .deque front' back', ctx =>
      ∃ ys zs, front.Relisted ys ctx.element ∧ back.Relisted zs ctx.element ∧
        (front'.toList = ys ∧ back'.toList = zs ∨
          (t = .byte → m + n ≤ ctx.limits.maxBytesLen) ∧ front'.toList ++ back'.toList = ys ++ zs)
  | .array _ _, .array xs, .array ys, ctx => xs.Relisted ys.toList ctx.element
  | .map _ _ _, .map es, .map fs, ctx => ∃ gs, es.Relisted gs ctx.element ∧
      (fs.toList = gs ∨ fs.toList.Perm gs ∧ WrittenApart ctx.element (es.toList.map (·.1)))
  | .set _ _, .set xs, .set ys, ctx => ∃ zs, xs.Relisted zs ctx.element ∧
      (ys.toList = zs ∨ ys.toList.Perm zs ∧ WrittenApart ctx.element xs.toList)
  | .record k _, .record xs, .record ys, ctx => xs.Relisted ys k.container ctx
  | .union _ _, .union c, .union d, ctx => c.Relisted d ctx.bare
  | .recursive _, .recursive x, .recursive y, ctx => x.Relisted y ctx
termination_by structural _ x => x
def Items.Relisted : {t : Ty} → {n : Nat} → Items t n → List (Value t) → Context → Prop
  | _, _, .nil, [], _ => True
  | _, _, .cons x xs, y :: ys, ctx => x.Relisted y ctx ∧ xs.Relisted ys ctx
  | _, _, _, _, _ => False
termination_by structural _ _ xs => xs
def Entries.Relisted : {k v : Ty} → Entries k v → List (Value k × Value v) → Context → Prop
  | _, _, .nil, [], _ => True
  | _, _, .cons key value rest, f :: fs, ctx =>
      (key.Relisted f.1 ctx ∧ value.Relisted f.2 ctx) ∧ rest.Relisted fs ctx
  | _, _, _, _, _ => False
termination_by structural _ _ es => es
/-- A field that is written counts in the context that it is entered with. -/
def Record.Relisted : {fs : Fields} → Record fs → Record fs → Option String → Context → Prop
  | .nil, .nil, .nil, _, _ => True
  | .cons _ declared _ _, .cons x xs, .cons y ys, container, ctx =>
      (declared.skips = false → ∀ fieldCtx, declared.enter container ctx = .ok fieldCtx → x.Relisted y fieldCtx) ∧
        xs.Relisted ys container ctx
  | .cons _ declared _ _, .cons _ xs, .omitted _ ys, container, ctx =>
      declared.skips = true ∧ xs.Relisted ys container ctx
  | .cons _ declared _ _, .omitted _ xs, .cons _ ys, container, ctx =>
      declared.skips = true ∧ xs.Relisted ys container ctx
  | .cons _ _ _ _, .omitted _ xs, .omitted _ ys, container, ctx => xs.Relisted ys container ctx
termination_by structural _ xs => xs
def Choice.Relisted : {cs : Cases} → Choice cs → Choice cs → Context → Prop
  | .cons _ _ _, .here x, .here y, ctx => x.Relisted y ctx
  | .cons _ _ _, .there c, .there d, ctx => c.Relisted d ctx
  | .cons _ _ _, .here _, .there _, _ => False
  | .cons _ _ _, .there _, .here _, _ => False
termination_by structural _ c => c
end

theorem Items.relisted_iff : {t : Ty} → {n : Nat} → (xs : Items t n) → (ys : List (Value t)) → (ctx : Context) →
    (xs.Relisted ys ctx ↔ List.Forall₂ (fun x y => x.Relisted y ctx) xs.toList ys)
  | _, _, .nil, [], _ => by simp [Items.Relisted, Items.toList]
  | _, _, .nil, _ :: _, _ => by simp [Items.Relisted, Items.toList]
  | _, _, .cons _ _, [], _ => by simp [Items.Relisted, Items.toList]
  | _, _, .cons x xs, y :: ys, ctx => by
      rw [Items.Relisted, Items.toList, List.forall₂_cons, xs.relisted_iff ys ctx]

theorem Entries.relisted_iff : {k v : Ty} → (es : Entries k v) → (fs : List (Value k × Value v)) →
    (ctx : Context) → (es.Relisted fs ctx ↔
      List.Forall₂ (fun e f => e.1.Relisted f.1 ctx ∧ e.2.Relisted f.2 ctx) es.toList fs)
  | _, _, .nil, [], _ => by simp [Entries.Relisted, Entries.toList]
  | _, _, .nil, _ :: _, _ => by simp [Entries.Relisted, Entries.toList]
  | _, _, .cons _ _ _, [], _ => by simp [Entries.Relisted, Entries.toList]
  | _, _, .cons _ _ rest, _ :: fs, ctx => by
      rw [Entries.Relisted, Entries.toList, List.forall₂_cons, rest.relisted_iff fs ctx]

/-! ### Parts that are written alike -/

/-- Both values fail, or both are written as the same bytes. -/
def Value.SameWire {t : Ty} (x y : Value t) (ctx : Context) : Prop :=
  ∀ b, x.wire ctx = .ok b ↔ y.wire ctx = .ok b

theorem wires_congr {t : Ty} {ctx : Context} {xs ys : List (Value t)}
    (h : List.Forall₂ (fun x y => x.SameWire y ctx) xs ys) (bs : List Bytes) :
    Wires ctx xs bs ↔ Wires ctx ys bs := by
  induction h generalizing bs with
  | nil => rfl
  | cons hxy _ ih =>
      simp only [Wires, List.forall₂_cons_left_iff, hxy _] at ih ⊢
      simp only [ih]

theorem entryWires_congr {k v : Ty} {ctx : Context} {es fs : List (Value k × Value v)}
    (h : List.Forall₂ (fun e f => e.1.SameWire f.1 ctx ∧ e.2.SameWire f.2 ctx) es fs)
    (ps : List (Bytes × Bytes)) : EntryWires ctx es ps ↔ EntryWires ctx fs ps := by
  induction h generalizing ps with
  | nil => rfl
  | cons hef _ ih =>
      simp only [EntryWires, List.forall₂_cons_left_iff, hef.1 _, hef.2 _] at ih ⊢
      simp only [ih]

theorem Items.forall₂_sameWire {t : Ty} {n : Nat} {xs : Items t n} {ys : List (Value t)} {ctx : Context}
    (ih : ∀ x ∈ xs.toList, ∀ y ctx, x.Relisted y ctx → x.SameWire y ctx) (h : xs.Relisted ys ctx) :
    List.Forall₂ (fun x y => x.SameWire y ctx) xs.toList ys :=
  forall₂_imp_of_mem ((xs.relisted_iff ys ctx).mp h) fun x hx y => ih x hx y ctx

theorem Items.sameWire_of_relisted {t : Ty} {m n : Nat} {xs : Items t m} {ys : Items t n} {ctx : Context}
    (ih : ∀ x ∈ xs.toList, ∀ y ctx, x.Relisted y ctx → x.SameWire y ctx) (h : xs.Relisted ys.toList ctx) :
    m = n ∧ ∀ b, xs.wire ctx = .ok b ↔ ys.wire ctx = .ok b := by
  have hsame := Items.forall₂_sameWire ih h
  have hlength := Items.length_eq hsame
  refine ⟨hlength, fun b => ?_⟩
  simp only [Items.wire_eq_ok, wires_congr hsame, hlength]

theorem Record.wire_iff_of_relisted : {fs : Fields} → (xs ys : Record fs) → (container : Option String) →
    (ctx : Context) → xs.All (fun _ x => ∀ y ctx, x.Relisted y ctx → x.SameWire y ctx) →
      xs.Relisted ys container ctx → ∀ b, xs.wire container ctx = .ok b ↔ ys.wire container ctx = .ok b
  | .nil, .nil, .nil, _, _, _, _, _ => Iff.rfl
  | .cons .., .cons x xs, .cons y ys, container, ctx, ih, h, b => by
      obtain ⟨ihx, ihxs⟩ := ih
      obtain ⟨hx, hxs⟩ := h
      have hrest := xs.wire_iff_of_relisted ys container ctx ihxs hxs
      rw [Record.wire_cons, Record.wire_cons]
      split
      · exact hrest b
      · next hskip =>
          have hfield := fun fieldCtx hctx => ihx y fieldCtx (hx (by simpa using hskip) fieldCtx hctx)
          constructor
          · intro h
            obtain ⟨fieldCtx, u, v, hctx, hu, hv, rfl⟩ := h
            exact ⟨fieldCtx, u, v, hctx, (hfield fieldCtx hctx u).mp hu, (hrest v).mp hv, rfl⟩
          · intro h
            obtain ⟨fieldCtx, u, v, hctx, hu, hv, rfl⟩ := h
            exact ⟨fieldCtx, u, v, hctx, (hfield fieldCtx hctx u).mpr hu, (hrest v).mpr hv, rfl⟩
  | .cons .., .cons _ xs, .omitted _ ys, container, ctx, ih, h, b => by
      rw [Record.wire_cons, if_pos h.1, Record.wire_omitted, xs.wire_iff_of_relisted ys container ctx ih.2 h.2]
      simp [h.1]
  | .cons .., .omitted _ xs, .cons _ ys, container, ctx, ih, h, b => by
      rw [Record.wire_cons, if_pos h.1, Record.wire_omitted, xs.wire_iff_of_relisted ys container ctx ih h.2]
      simp [h.1]
  | .cons .., .omitted _ xs, .omitted _ ys, container, ctx, ih, h, b => by
      rw [Record.wire_omitted, Record.wire_omitted, xs.wire_iff_of_relisted ys container ctx ih h]

theorem Choice.sameWire_of_relisted : {cs : Cases} → (c d : Choice cs) → (ctx : Context) →
    (∀ y, c.value.Relisted y ctx → c.value.SameWire y ctx) → c.Relisted d ctx →
      c.payload = d.payload ∧ ∀ b, c.value.wire ctx = .ok b ↔ d.value.wire ctx = .ok b
  | .cons .., .here _, .here y, _, ih, h => ⟨rfl, ih y h⟩
  | .cons .., .there c, .there d, ctx, ih, h => c.sameWire_of_relisted d ctx ih h
  | .cons .., .here _, .there _, _, _, h => h.elim
  | .cons .., .there _, .here _, _, _, h => h.elim

theorem Value.sameWire_deque {t : Ty} {m n p q : Nat} {front : Items t m} {back : Items t n} {front' : Items t p}
    {back' : Items t q} {ys zs : List (Value t)} {ctx : Context}
    (hfront : List.Forall₂ (fun x y => x.SameWire y ctx.element) front.toList ys)
    (hback : List.Forall₂ (fun x z => x.SameWire z ctx.element) back.toList zs)
    (hcut : front'.toList = ys ∧ back'.toList = zs ∨
      (t = .byte → m + n ≤ ctx.limits.maxBytesLen) ∧ front'.toList ++ back'.toList = ys ++ zs) :
    (deque front back).SameWire (deque front' back') ctx := by
  intro b
  have happend : front'.toList ++ back'.toList = ys ++ zs := by
    obtain ⟨rfl, rfl⟩ | ⟨-, h⟩ := hcut
    · rfl
    · exact h
  have hsame : List.Forall₂ (fun x y => x.SameWire y ctx.element) (front.toList ++ back.toList)
      (front'.toList ++ back'.toList) := happend ▸ List.rel_append hfront hback
  have hlength : m + n = p + q := by
    simpa [Items.length_toList] using hsame.length_eq
  have hbyte : (t = .byte → m ≤ ctx.limits.maxBytesLen ∧ n ≤ ctx.limits.maxBytesLen) ↔
      (t = .byte → p ≤ ctx.limits.maxBytesLen ∧ q ≤ ctx.limits.maxBytesLen) := by
    obtain ⟨rfl, rfl⟩ | ⟨hbound, -⟩ := hcut
    · rw [Items.length_eq hfront, Items.length_eq hback]
    · refine forall_congr' fun ht => ?_
      have hle := hbound ht
      omega
  simp only [wire_deque, hlength, hbyte, wires_congr hsame]

theorem Value.sameWire_map {l : Listing} {k v : Ty} {es fs : Entries k v} {gs : List (Value k × Value v)}
    {ctx : Context}
    (h : List.Forall₂ (fun e g => e.1.SameWire g.1 ctx.element ∧ e.2.SameWire g.2 ctx.element) es.toList gs)
    (hlist : fs.toList = gs ∨ fs.toList.Perm gs ∧ WrittenApart ctx.element (es.toList.map (·.1))) :
    (map es : Value (.map l k v)).SameWire (map fs) ctx := by
  intro b
  have hsame := entryWires_congr h
  rw [wire_map, wire_map]
  rcases hlist with rfl | ⟨hperm, hapart⟩
  · simp only [hsame]
  · have hsorted {ps qs : List (Bytes × Bytes)} (hps : EntryWires ctx.element es.toList ps) (hqp : qs.Perm ps) :
        sortByKey qs = sortByKey ps := (sortByKey_congr hqp.symm (hapart _ hps.keys)).symm
    constructor
    · intro h
      obtain ⟨ps, u, hps, hu, rfl⟩ := h
      obtain ⟨qs, hqs, hqp⟩ := ((hsame ps).mp hps).perm hperm
      exact ⟨qs, u, hqs, by rwa [hqp.length_eq], by rw [hsorted hps hqp]⟩
    · intro h
      obtain ⟨qs, u, hqs, hu, rfl⟩ := h
      obtain ⟨ps, hps, hpq⟩ := hqs.perm hperm.symm
      have hps' := (hsame ps).mpr hps
      exact ⟨ps, u, hps', by rwa [hpq.length_eq], by rw [hsorted hps' hpq.symm]⟩

theorem Value.sameWire_set {l : Listing} {t : Ty} {m n : Nat} {xs : Items t m} {ys : Items t n}
    {zs : List (Value t)} {ctx : Context}
    (h : List.Forall₂ (fun x z => x.SameWire z ctx.element) xs.toList zs)
    (hlist : ys.toList = zs ∨ ys.toList.Perm zs ∧ WrittenApart ctx.element xs.toList) :
    (set xs : Value (.set l t)).SameWire (set ys) ctx := by
  intro b
  have hsame := wires_congr h
  rw [wire_set, wire_set]
  rcases hlist with rfl | ⟨hperm, hapart⟩
  · simp only [hsame]
  · have hsorted {bs cs : List Bytes} (hbs : Wires ctx.element xs.toList bs) (hcb : cs.Perm bs) :
        sortBytes cs = sortBytes bs := (sortBytes_congr hcb.symm (hapart _ hbs)).symm
    constructor
    · intro h
      obtain ⟨bs, u, hbs, hu, rfl⟩ := h
      obtain ⟨cs, hcs, hcb⟩ := ((hsame bs).mp hbs).perm hperm
      exact ⟨cs, u, hcs, by rwa [hcb.length_eq], by rw [hsorted hbs hcb]⟩
    · intro h
      obtain ⟨cs, u, hcs, hu, rfl⟩ := h
      obtain ⟨bs, hbs, hbc⟩ := hcs.perm hperm.symm
      have hbs' := (hsame bs).mpr hbs
      exact ⟨bs, u, hbs', by rwa [hbc.length_eq], by rw [hsorted hbs' hbc.symm]⟩

theorem Value.sameWire_of_relisted {t : Ty} (x y : Value t) (ctx : Context) (h : x.Relisted y ctx) :
    x.SameWire y ctx := by
  induction x generalizing ctx with
  | scalar x =>
      cases y with
      | scalar y =>
          obtain rfl : x = y := h
          exact fun b => Iff.rfl
  | absent =>
      cases y with
      | absent => exact fun b => Iff.rfl
      | present y => exact h.elim
  | present x ih =>
      cases y with
      | absent => exact h.elim
      | present y =>
          intro b
          have hpresent := ih y ctx.present h
          rw [wire_present, wire_present]
          split
          · simp only [hpresent _]
          · next hoptional =>
              rw [Context.present_eq (by simpa using hoptional)] at hpresent
              exact hpresent b
  | pointer x ih =>
      cases y with
      | pointer y => exact ih y ctx h
  | sequence xs ih =>
      cases y with
      | sequence ys =>
          obtain ⟨rfl, hitems⟩ := Items.sameWire_of_relisted ih h
          intro b
          simp only [wire_sequence, hitems]
  | deque front back ihfront ihback =>
      cases y with
      | deque front' back' =>
          obtain ⟨ys, zs, hys, hzs, hcut⟩ := h
          exact sameWire_deque (Items.forall₂_sameWire ihfront hys) (Items.forall₂_sameWire ihback hzs) hcut
  | array xs ih =>
      cases y with
      | array ys => exact (Items.sameWire_of_relisted ih h).2
  | map es ih =>
      cases y with
      | map fs =>
          obtain ⟨gs, hgs, hlist⟩ := h
          rw [Entries.relisted_iff] at hgs
          refine sameWire_map (forall₂_imp_of_mem hgs fun e he g heg => ?_) hlist
          exact ⟨(ih e he).1 g.1 ctx.element heg.1, (ih e he).2 g.2 ctx.element heg.2⟩
  | set xs ih =>
      cases y with
      | set ys =>
          obtain ⟨zs, hzs, hlist⟩ := h
          exact sameWire_set (Items.forall₂_sameWire ih hzs) hlist
  | record xs ih =>
      cases y with
      | record ys => exact xs.wire_iff_of_relisted ys _ ctx ih h
  | union c ih =>
      cases y with
      | union d =>
          obtain ⟨hpayload, hvalue⟩ := c.sameWire_of_relisted d ctx.bare (fun y => ih y ctx.bare) h
          intro b
          simp only [wire_union, hpayload, hvalue]
  | recursive x ih =>
      cases y with
      | recursive y => exact ih y ctx h

/-- Values that differ only in the order in which maps and sets list what they hold, in what skipped fields
hold, and in where deques are cut, are written alike. -/
theorem Value.encode_of_relisted {t : Ty} {x y : Value t} {ctx : Context} (h : x.Relisted y ctx) :
    ((∃ b, (x.encode ctx).bytes = .ok b) ↔ ∃ c, (y.encode ctx).bytes = .ok c) ∧
      ∀ b c, (x.encode ctx).bytes = .ok b → (y.encode ctx).bytes = .ok c → b = c := by
  have hsame := sameWire_of_relisted x y ctx h
  refine ⟨exists_congr hsame, fun b c hb hc => ?_⟩
  exact Except.ok.inj (((hsame b).mp hb).symm.trans hc)

end Values

section Shelves

/-- A record that holds a set and, skipped, a number. -/
abbrev shelfType : Ty :=
  .record (.declared "Shelf" .named)
    (.cons "labels" .none (.set (.asWritten .hash) .u8) (.cons "cursor" (.valid { skip := true }) .u8 .nil))

def shelf (labels : List UInt8) (cursor : UInt8) : Value shelfType :=
  .record (.cons (.set (.ofList (labels.map .ofByte))) (.cons (.ofByte cursor) .nil))

def shelves (es : List (UInt8 × Value shelfType)) : Value (.map (.asWritten .hash) .u8 shelfType) :=
  .map (.ofList (es.map fun e => (.ofByte e.1, e.2)))

/-- Two shelves, and the same two in the other order, labelled in the other order and with other cursors. -/
theorem Value.encode_of_relisted_shelves :
    (shelves [(2, shelf [5, 6] 0), (1, shelf [] 7)]).Relisted (shelves [(1, shelf [] 9), (2, shelf [6, 5] 1)])
        (.start .empty) ∧
      ((shelves [(2, shelf [5, 6] 0), (1, shelf [] 7)]).encode (.start .empty)).bytes =
        .ok [2, 0, 0, 0, 1, 0, 0, 0, 0, 2, 2, 0, 0, 0, 5, 6] ∧
      ((shelves [(1, shelf [] 9), (2, shelf [6, 5] 1)]).encode (.start .empty)).bytes =
        .ok [2, 0, 0, 0, 1, 0, 0, 0, 0, 2, 2, 0, 0, 0, 5, 6] := by
  have hkeys (ctx : Context) : WrittenApart ctx [.ofByte 2, .ofByte 1] :=
    (writtenApart_iff (.cons rfl (.cons rfl .nil))).mpr (show [[2], [1]].Nodup by decide)
  have hlabels (ctx : Context) : WrittenApart ctx [.ofByte 5, .ofByte 6] :=
    (writtenApart_iff (.cons rfl (.cons rfl .nil))).mpr (show [[5], [6]].Nodup by decide)
  have h : (shelves [(2, shelf [5, 6] 0), (1, shelf [] 7)]).Relisted
      (shelves [(1, shelf [] 9), (2, shelf [6, 5] 1)]) (.start .empty) := by
    refine ⟨[(.ofByte 2, shelf [6, 5] 1), (.ofByte 1, shelf [] 9)], ?_, .inr ⟨.swap _ _ _, hkeys _⟩⟩
    refine ⟨⟨rfl, fun _ _ _ => ?_, nofun, trivial⟩, ⟨rfl, fun _ _ _ => ?_, nofun, trivial⟩, trivial⟩
    · exact ⟨[.ofByte 5, .ofByte 6], ⟨rfl, rfl, trivial⟩, .inr ⟨.swap _ _ _, hlabels _⟩⟩
    · exact ⟨[], trivial, .inl rfl⟩
  have hlisted : ((shelves [(2, shelf [5, 6] 0), (1, shelf [] 7)]).encode (.start .empty)).bytes =
      .ok [2, 0, 0, 0, 1, 0, 0, 0, 0, 2, 2, 0, 0, 0, 5, 6] := by cbv
  obtain ⟨c, hc⟩ := (encode_of_relisted h).1.mp ⟨_, hlisted⟩
  have hsame := (encode_of_relisted h).2 _ c hlisted hc
  exact ⟨h, hlisted, hsame ▸ hc⟩

end Shelves

end CanonicalWire
