import CanonicalWire.Proofs.SortedSequence

/-!
Writing one after the other. No encoder looks at what is written already, so values that are written one after the
other are written as each is by itself, and what maps and sets write apart is what they would write in place.
-/

namespace CanonicalWire

theorem forall₂_exists_map {α β γ : Type} {r : α → β → Prop} {g : β → γ} {as : List α} {cs : List γ}
    (h : List.Forall₂ (fun a c => ∃ b, r a b ∧ g b = c) as cs) : ∃ bs, List.Forall₂ r as bs ∧ bs.map g = cs := by
  induction h with
  | nil => exact ⟨[], .nil, rfl⟩
  | cons hhead _ ih =>
      obtain ⟨b, hb, rfl⟩ := hhead
      obtain ⟨bs, hbs, rfl⟩ := ih
      exact ⟨b :: bs, .cons hb hbs, rfl⟩

namespace Encode

variable {α β : Type} {f : α → Encode}

/-- Writes one after the other. -/
def writeAll (f : α → Encode) (as : List α) : Encode := as.forM f

theorem appends_writeAll (hf : ∀ a, (f a).Appends) : (as : List α) → (writeAll f as).Appends
  | [] => appends_pure
  | a :: as => (hf a).bind (appends_writeAll hf as)

theorem bytes_writeAll (hf : ∀ a, (f a).Appends) (as : List α) :
    (writeAll f as).bytes = (as.mapM fun a => (f a).bytes).map List.flatten := by
  induction as with
  | nil => rfl
  | cons a as ih =>
      calc (writeAll f (a :: as)).bytes
        _ = (f a).bytes >>= fun u => (writeAll f as).bytes >>= fun v => pure (u ++ v) :=
          bytes_bind (appends_writeAll hf as)
        _ = ((a :: as).mapM fun a => (f a).bytes).map List.flatten := by
          rw [ih, List.mapM_cons]
          cases (f a).bytes with
          | error e => rfl
          | ok u => cases as.mapM fun a => (f a).bytes <;> rfl

/-- What is appended is what each appends to an empty writer. The first that fails decides the error. -/
theorem writeAll_apply (hf : ∀ a, (f a).Appends) (as : List α) (written : Bytes) :
    writeAll f as written = (as.mapM fun a => (f a).bytes).map fun bs => ((), written ++ bs.flatten) := by
  rw [appends_writeAll hf as, bytes_writeAll hf]
  cases as.mapM fun a => (f a).bytes <;> rfl

theorem bytes_writeAll_eq_ok (hf : ∀ a, (f a).Appends) {as : List α} {v : Bytes} :
    (writeAll f as).bytes = .ok v ↔ ∃ bs, List.Forall₂ (fun a b => (f a).bytes = .ok b) as bs ∧ bs.flatten = v := by
  rw [bytes_writeAll hf, map_eq_ok]
  simp only [mapM_eq_ok]

/-- Actions that append the same to an empty writer, if anything, do so on every writer. -/
theorem Appends.apply_eq_ok_congr {a b : Encode} (ha : a.Appends) (hb : b.Appends)
    (h : ∀ bs, a.bytes = .ok bs ↔ b.bytes = .ok bs) {written r : Bytes} :
    a written = .ok ((), r) ↔ b written = .ok ((), r) := by
  rw [ha.apply_eq_ok, hb.apply_eq_ok]
  simp only [h]

variable [Declarations]

/-- Things that are written in place, in the order of the bytes of their keys, give what they give when they are
written apart and put in this order then. -/
theorem bytes_writeAll_sortByWire {k : Ty} {ctx : Context} {key : α → Value k} {r : α → β → Prop}
    {bytes text : β → Bytes} (hkey : ∀ a p, r a p → (key a).wire ctx = .ok (bytes p)) (hunique : Relator.RightUnique r)
    (hf : ∀ a, (f a).Appends) (htext : ∀ a b, (f a).bytes = .ok b ↔ ∃ p, r a p ∧ text p = b) {as : List α} {v : Bytes} :
    (writeAll f (sortByWire ctx key as)).bytes = .ok v ↔
      ∃ ps, List.Forall₂ r as ps ∧ (ps.mergeSort fun a b => !decide (bytes b < bytes a)).flatMap text = v := by
  rw [bytes_writeAll_eq_ok hf]
  simp only [htext]
  constructor
  · rintro ⟨bs, hbs, rfl⟩
    obtain ⟨ps, hps, rfl⟩ := forall₂_exists_map hbs
    -- written in the order given, the same comes out in another order, which sorting brings back
    obtain ⟨qs, hqs, -⟩ := List.perm_comp_forall₂ (List.mergeSort_perm as _).symm hps
    obtain rfl := hunique.forall₂ hps (forall₂_sortByWire hqs hkey)
    exact ⟨qs, hqs, List.flatMap_def⟩
  · rintro ⟨ps, hps, rfl⟩
    refine ⟨_, List.forall₂_map_right_iff.mpr ((forall₂_sortByWire hps hkey).imp fun a p h => ?_),
      List.flatMap_def.symm⟩
    exact ⟨p, h, rfl⟩

end Encode

/-! ### Items and entries -/

section Values

variable [Declarations]

theorem Items.encodeEach_eq_writeAll : {t : Ty} → {n : Nat} → (xs : Items t n) → (ctx : Context) →
    xs.encodeEach ctx = Encode.writeAll (fun x => x.encode ctx) xs.toList
  | _, _, .nil, _ => rfl
  | _, _, .cons x xs, ctx => congrArg (x.encode ctx >>= ·) (funext fun _ => xs.encodeEach_eq_writeAll ctx)

theorem Items.encodeApart_eq_mapM : {t : Ty} → {n : Nat} → (xs : Items t n) → (ctx : Context) →
    xs.encodeApart ctx = xs.toList.mapM fun x => (x.encode ctx).bytes
  | _, _, .nil, _ => rfl
  | _, _, .cons x xs, ctx => by
      rw [encodeApart, xs.encodeApart_eq_mapM, toList, List.mapM_cons]

/-- Writes a key and its value. -/
def Encode.writeBoth {k v : Ty} (ctx : Context) (e : Value k × Value v) : Encode := do
  e.1.encode ctx
  e.2.encode ctx

section Places

variable {k v t : Ty} {n : Nat} (ctx : Context)

theorem Encode.appends_writeBoth (e : Value k × Value v) : (writeBoth ctx e).Appends :=
  (e.1.appends_encode ctx).bind (e.2.appends_encode ctx)

theorem Value.wire_eq_ok_iff {x : Value t} {b : Bytes} :
    x.wire ctx = .ok b ↔ ∀ written, x.encode ctx written = .ok ((), written ++ b) := by
  constructor
  · intro h written
    exact (x.appends_encode ctx).apply_eq_ok.mpr ⟨b, h, rfl⟩
  · intro h
    exact map_eq_ok.mpr ⟨_, h [], rfl⟩

theorem bytes_writeAll_items {xs : List (Value t)} {v : Bytes} :
    (Encode.writeAll (fun x => x.encode ctx) (sortByWire ctx id xs)).bytes = .ok v ↔
      ∃ bs, Wires ctx xs bs ∧ (sortBytes bs).flatten = v := by
  have htext (x : Value t) (b : Bytes) : (x.encode ctx).bytes = .ok b ↔ ∃ c, x.wire ctx = .ok c ∧ id c = b := by
    simp [Value.wire]
  refine (Encode.bytes_writeAll_sortByWire (fun _ _ h => h) (fun _ _ _ hb hc => Except.ok.inj (hb.symm.trans hc))
    (fun x => x.appends_encode ctx) htext).trans (exists_congr fun bs => and_congr_right fun _ => ?_)
  rw [List.flatMap_id]
  rfl

theorem bytes_writeAll_entries {es : List (Value k × Value v)} {w : Bytes} :
    (Encode.writeAll (Encode.writeBoth ctx) (sortByWire ctx Prod.fst es)).bytes = .ok w ↔
      ∃ ps, EntryWires ctx es ps ∧ (sortByKey ps).flatMap (fun p => p.1 ++ p.2) = w := by
  refine Encode.bytes_writeAll_sortByWire (fun e p h => h.1) ?_ (Encode.appends_writeBoth ctx) fun e b => ?_
  · rintro e ⟨b, c⟩ ⟨b', c'⟩ ⟨hb, hc⟩ ⟨hb', hc'⟩
    exact Prod.ext (Except.ok.inj (hb.symm.trans hb')) (Except.ok.inj (hc.symm.trans hc'))
  · rw [Encode.writeBoth, Encode.bytes_bind_eq_ok (e.2.appends_encode ctx)]
    constructor
    · rintro ⟨b, c, hb, hc, rfl⟩
      exact ⟨(b, c), ⟨hb, hc⟩, rfl⟩
    · rintro ⟨p, ⟨hb, hc⟩, rfl⟩
      exact ⟨p.1, p.2, hb, hc, rfl⟩

theorem Value.encode_set_eq_ok {l : Listing} (xs : Items t n) {written r : Bytes} :
    (set xs : Value (.set l t)).encode ctx written = .ok ((), r) ↔ (do
      Encode.writeLen n
      Encode.writeAll (fun x => x.encode ctx.element) (sortByWire ctx.element id xs.toList) : Encode) written =
        .ok ((), r) := by
  have hitems := Encode.appends_writeAll fun x : Value t => x.appends_encode ctx.element
  refine (appends_encode _ ctx).apply_eq_ok_congr ((Encode.appends_writeLen n).bind (hitems _)) fun b => ?_
  refine wire_set.trans (Iff.trans ?_ (Encode.bytes_bind_eq_ok (hitems _)).symm)
  simp only [bytes_writeAll_items]
  constructor
  · rintro ⟨bs, u, hbs, hu, rfl⟩
    rw [← hbs.length_eq, xs.length_toList] at hu
    exact ⟨u, _, hu, ⟨bs, hbs, rfl⟩, rfl⟩
  · rintro ⟨u, _, hu, ⟨bs, hbs, rfl⟩, rfl⟩
    rw [← xs.length_toList, hbs.length_eq] at hu
    exact ⟨bs, u, hbs, hu, rfl⟩

theorem Value.encode_map_eq_ok {l : Listing} (es : Entries k v) {written r : Bytes} :
    (map es : Value (.map l k v)).encode ctx written = .ok ((), r) ↔ (do
      Encode.writeLen es.toList.length
      Encode.writeAll (Encode.writeBoth ctx.element) (sortByWire ctx.element Prod.fst es.toList) : Encode) written =
        .ok ((), r) := by
  have hentries := Encode.appends_writeAll (Encode.appends_writeBoth (k := k) (v := v) ctx.element)
  refine (appends_encode _ ctx).apply_eq_ok_congr ((Encode.appends_writeLen _).bind (hentries _)) fun b => ?_
  refine wire_map.trans (Iff.trans ?_ (Encode.bytes_bind_eq_ok (hentries _)).symm)
  simp only [bytes_writeAll_entries]
  constructor
  · rintro ⟨ps, u, hps, hu, rfl⟩
    exact ⟨u, _, hps.length_eq ▸ hu, ⟨ps, hps, rfl⟩, rfl⟩
  · rintro ⟨u, _, hu, ⟨ps, hps, rfl⟩, rfl⟩
    exact ⟨ps, u, hps, hps.length_eq ▸ hu, rfl⟩

end Places

/-- A value in the context that it is written in. -/
structure Placed where
  type : Ty
  value : Value type
  ctx : Context

def Placed.encode (p : Placed) : Encode := p.value.encode p.ctx

/-- Encoding appends to what is written already, whatever that is, the bytes that it writes into an empty writer, and
fails as it fails there. So values that are written one after the other give their bytes one after the other, and the
bytes that maps and sets write apart are those that are written in place. -/
theorem Value.encode_appends :
    (∀ {t : Ty} (x : Value t) ctx written,
      x.encode ctx written = (x.encode ctx []).map fun r => ((), written ++ r.2)) ∧
    (∀ ps written, Encode.writeAll Placed.encode ps written =
      (ps.mapM fun p : Placed => p.encode.bytes).map fun bs => ((), written ++ bs.flatten)) ∧
    (∀ {t n} (xs : Items t n) ctx written, xs.encodeEach ctx written =
      (xs.encodeApart ctx).map fun bs => ((), written ++ bs.flatten)) ∧
    (∀ {t n} (xs : Items t n) ctx bs, xs.encodeApart ctx = .ok bs ↔
      List.Forall₂ (fun x b => ∀ written, x.encode ctx written = .ok ((), written ++ b)) xs.toList bs) ∧
    (∀ {k v} (es : Entries k v) ctx ps, es.encodeApart ctx = .ok ps ↔
      List.Forall₂ (fun e p => (∀ written, e.1.encode ctx written = .ok ((), written ++ p.1)) ∧
        ∀ written, e.2.encode ctx written = .ok ((), written ++ p.2)) es.toList ps) ∧
    (∀ {l t n} (xs : Items t n) ctx written r,
      (Value.set xs : Value (.set l t)).encode ctx written = .ok ((), r) ↔ (do
        Encode.writeLen n
        Encode.writeAll (fun x => x.encode ctx.element) (sortByWire ctx.element id xs.toList) : Encode) written =
          .ok ((), r)) ∧
    ∀ {l k v} (es : Entries k v) ctx written r,
      (Value.map es : Value (.map l k v)).encode ctx written = .ok ((), r) ↔ (do
        Encode.writeLen es.toList.length
        Encode.writeAll (Encode.writeBoth ctx.element) (sortByWire ctx.element Prod.fst es.toList) : Encode) written =
          .ok ((), r) := by
  refine ⟨fun x ctx written => ?_, Encode.writeAll_apply fun p : Placed => p.value.appends_encode p.ctx,
    fun xs ctx written => ?_, fun xs ctx bs => ?_, fun es ctx ps => ?_, fun xs ctx _ _ => encode_set_eq_ok ctx xs,
    fun es ctx _ _ => encode_map_eq_ok ctx es⟩
  · rw [x.appends_encode ctx, Encode.bytes]
    cases x.encode ctx [] <;> rfl
  · rw [xs.encodeEach_eq_writeAll, xs.encodeApart_eq_mapM]
    exact Encode.writeAll_apply (fun x => x.appends_encode ctx) _ written
  · simp only [xs.encodeApart_eq_ok, Wires, wire_eq_ok_iff]
  · simp only [es.encodeApart_eq_ok, EntryWires, wire_eq_ok_iff]

end Values

section Words

/-- The entry for 256 is written before that for 1, behind what is written already. -/
theorem Value.encode_appends_words :
    wordMap.encode (.start .empty) [9] = .ok ((), [9, 2, 0, 0, 0, 0, 1, 7, 1, 0, 8]) ∧
      Encode.writeAll Placed.encode [⟨_, wordMap, .start .empty⟩, ⟨_, word 5, .start .empty⟩] [9] =
        .ok ((), [9, 2, 0, 0, 0, 0, 1, 7, 1, 0, 8, 5, 0]) := by
  obtain ⟨happends, hall, -⟩ := encode_appends
  have hmap : wordMap.wire (.start .empty) = .ok [2, 0, 0, 0, 0, 1, 7, 1, 0, 8] := by cbv
  have hwords : ([⟨_, wordMap, .start .empty⟩, ⟨_, word 5, .start .empty⟩] : List Placed).mapM
      (fun p => p.encode.bytes) = .ok [[2, 0, 0, 0, 0, 1, 7, 1, 0, 8], [5, 0]] :=
    mapM_eq_ok.mpr (.cons hmap (.cons rfl .nil))
  constructor
  · rw [happends, (wire_eq_ok_iff _).mp hmap []]
    rfl
  · rw [hall, hwords]
    rfl

end Words

end CanonicalWire
