import CanonicalWire.Proofs.Agreement
import CanonicalWire.Proofs.Restored

/-!
Round trips. On the bytes of a value, whatever follows them, decoding takes exactly these bytes and returns
the value as it is restored if the value is readable, and fails if it is not.
-/

namespace CanonicalWire

theorem forall₂_perm_right {α β : Type} {r : α → β → Prop} {xs : List α} {ys zs : List β}
    (h : List.Forall₂ r xs ys) (hperm : ys.Perm zs) : ∃ ws, xs.Perm ws ∧ List.Forall₂ r ws zs := by
  have hcomp : Relation.Comp (List.Forall₂ r) List.Perm xs zs := ⟨ys, h, hperm⟩
  rwa [List.forall₂_comp_perm_eq_perm_comp_forall₂] at hcomp

theorem Decode.reads_readVariant {union : String} {payload : Ty} {ctx : Context} {d : Int32}
    (h : Encode.discriminantOf union payload ctx = .ok d) :
    ∃ v, (readVariant union ctx).Reads (digitsLE prefixWidth d.toBitVec.toNat) v ∧ v.payload = payload := by
  rw [Encode.discriminantOf] at h
  split at h
  · cases h
  · next m hm =>
      split at h
      · cases h
      · next d' hd =>
          cases h
          obtain ⟨v, hv, hpayload⟩ := VariantMap.discriminantOf_eq_some_iff_variant.mp hd
          refine ⟨v, fun rest => ?_, hpayload⟩
          rw [readVariant, hm]
          show (readDiscriminant >>= _) _ = _
          rw [bind_of_ok (reads_readDiscriminant _ rest), hv]
          rfl

section Values

variable [Declarations]

theorem wires_byte {ctx : Context} {xs : List (Value .byte)} {bs : List Bytes} (h : Wires ctx xs bs) :
    bs.flatten.map .ofByte = xs ∧ bs.flatten.length = xs.length := by
  induction h with
  | nil => exact ⟨rfl, rfl⟩
  | @cons x b xs bs hx _ ih =>
      obtain ⟨c, rfl, -⟩ := x.eq_ofByte
      cases (Value.wire_byte c ctx).symm.trans hx
      exact ⟨congrArg (Value.ofByte c :: ·) ih.1, congrArg (· + 1) ih.2⟩

/-- The items of a list either all take bytes or none does, so one item shows what holds for all. -/
theorem Wires.bound_iff {t : Ty} {ctx : Context} {xs : List (Value t)} {bs : List Bytes} (h : Wires ctx xs bs)
    (bound : Nat) : ([] ∈ bs → xs.length ≤ bound) ↔ (WrittenAsNothing ctx xs → xs.length ≤ bound) := by
  constructor
  · intro hbound hnothing
    cases h with
    | nil => exact Nat.zero_le _
    | @cons x b xs bs hx hxs =>
        have hb : b = [] := Except.ok.inj (hx.symm.trans (hnothing x (List.mem_cons_self ..)))
        exact hbound (hb ▸ List.mem_cons_self ..)
  · intro hbound hmem
    have hweight : t.Weightless ctx := (h.nil_iff [] hmem).mp rfl
    refine hbound fun x hx => ?_
    obtain ⟨b, hb, hwire⟩ := h.exists_of_mem hx
    rwa [(h.nil_iff b hb).mpr hweight] at hwire

/-- What is read from the bytes of a value is written as the same bytes. -/
theorem Wires.transfer {t : Ty} {ctx : Context} {xs ys : List (Value t)} {bs : List Bytes} (h : Wires ctx xs bs)
    (hxy : List.Forall₂ (fun x y => ∀ b, x.wire ctx = .ok b → y.wire ctx = .ok b) xs ys) : Wires ctx ys bs := by
  induction hxy generalizing bs with
  | nil => exact h
  | cons hx _ ih =>
      cases h with
      | cons hb hbs => exact .cons (hx _ hb) (ih hbs)

namespace Decode

variable {t : Ty} {item : Decode (Value t)} {ctx : Context}

theorem judges_readBlock {xs : List (Value .byte)} {bs : List Bytes} (hbs : Wires ctx xs bs) {n : Nat}
    (hn : xs.length = n) :
    (readBlock n ctx).Judges bs.flatten (n ≤ ctx.limits.maxBytesLen) fun ys => ys.toList = xs := by
  obtain ⟨hbytes, hlength⟩ := wires_byte hbs
  constructor
  · intro hle
    let block : Block n := ⟨bs.flatten, hlength.trans hn⟩
    refine ⟨.ofBlock block, fun rest => ?_, (Items.toList_ofBlock block).trans hbytes⟩
    rw [readBlock_of_le hle]
    exact (reads_take block).map _ rest
  · exact fun hgt rest => ⟨_, readBlock_of_lt (Nat.not_le.mp hgt) _⟩

theorem judges_readRun {xs : List (Value t)} {bs : List Bytes} (hbs : Wires ctx xs bs)
    (hitem : ∀ x ∈ xs, ∀ b, x.wire ctx = .ok b → item.Judges b (x.Readable ctx) fun y => x.RestoredAs y ctx)
    {n : Nat} (hn : xs.length = n) :
    (readRun t item n ctx).Judges bs.flatten
      ((∀ x ∈ xs, x.Readable ctx) ∧ (t = .byte ∨ WrittenAsNothing ctx xs → n ≤ ctx.limits.maxBytesLen))
      fun ys => List.Forall₂ (fun x y => x.RestoredAs y ctx) xs ys.toList := by
  by_cases ht : t = .byte
  · subst ht
    have hreadable : ∀ x ∈ xs, x.Readable ctx := by
      rintro ⟨x⟩ -
      trivial
    refine ((judges_readBlock hbs hn).imp ?_).congr
      ⟨fun hle => ⟨hreadable, fun _ => hle⟩, fun h => h.2 (.inl rfl)⟩
    rintro - ys rfl
    refine List.forall₂_same.mpr ?_
    rintro ⟨x⟩ -
    rfl
  · rw [readRun_of_ne ht]
    refine (judges_readEach hbs hitem n ctx hn).congr ?_
    subst hn
    rw [hbs.bound_iff]
    simp [ht]

/-- The item is read back, and what it is read back as is written as the same bytes. -/
theorem Judges.and_alike {t : Ty} {item : Decode (Value t)} {ctx : Context} {x : Value t} {b : Bytes} {p : Prop}
    {Q : Value t → Prop} (h : item.Judges b p Q) (hitem : item.Canonical ctx) (hx : x.wire ctx = .ok b) :
    item.Judges b p fun y => Q y ∧ ∀ c, x.wire ctx = .ok c → y.wire ctx = .ok c := by
  refine (h.and_wire hitem).imp fun _ y hy => ⟨hy.1, fun c hc => ?_⟩
  rw [hx] at hc
  exact hy.2.trans hc

theorem judges_sortedSet {t : Ty} {item : Decode (Value t)} {ctx : Context} {m n : Nat} {xs : Items t m}
    {bs : List Bytes} (hbs : Wires ctx xs.toList bs) (hcanonical : item.Canonical ctx)
    (hitem : ∀ x ∈ xs.toList, ∀ b, x.wire ctx = .ok b →
      item.Judges b (x.Readable ctx) fun y => x.RestoredAs y ctx) (hn : bs.length = n) :
    (readSet item n 0 none).Judges (sortBytes bs).flatten (xs.Readable ctx ∧ WrittenApart ctx xs.toList)
      fun ys => Wires ctx ys.toList (sortBytes bs) ∧ Ascending (sortBytes bs) ∧
        ∃ zs, xs.RestoredAs zs ctx ∧ ys.toList.Perm zs := by
  obtain ⟨sorted, hperm, hsorted⟩ := forall₂_perm_right hbs (sortBytes_perm bs).symm
  have hlength : sorted.length = n := hperm.length_eq.symm.trans (hbs.length_eq.trans hn)
  have hmem : ∀ x ∈ sorted, x ∈ xs.toList := fun x hx => hperm.mem_iff.mpr hx
  have hcond : ((∀ x ∈ sorted, x.Readable ctx) ∧ AscendingFrom none (sortBytes bs)) ↔
      xs.Readable ctx ∧ WrittenApart ctx xs.toList := by
    rw [xs.readable_iff, ascendingFrom_none, ascending_sortBytes, writtenApart_iff hbs]
    simp only [hperm.mem_iff]
  refine ((judges_readSet hsorted (fun x hx b hb => (hitem x (hmem x hx) b hb).and_alike hcanonical hb)
    hlength 0 none).imp ?_).congr hcond
  intro hread ys hys
  have hbytes : Wires ctx ys.toList (sortBytes bs) := Wires.transfer hsorted (hys.imp fun x y hxy => hxy.2)
  obtain ⟨zs, hzs, hzy⟩ := List.perm_comp_forall₂ hperm (hys.imp fun x y hxy => hxy.1)
  exact ⟨hbytes, hread.2, zs, (xs.restoredAs_iff zs ctx).mpr hzs, hzy.symm⟩

end Decode

/-! ### Maps and sets -/

section Keys

variable [LawfulKeys]

theorem Entries.listed_list {k v : Ty} {fs : Entries k v} {ctx : Context} {bs : List Bytes}
    (hbs : Wires ctx (fs.toList.map (·.1)) bs) (hascending : Ascending bs) (l : Listing) :
    (fs.list l).toList.Perm fs.toList ∧ Listed ctx ((fs.list l).toList.map (·.1)) l := by
  have hne := List.pairwise_map.mp (hbs.pairwise_compare_ne hascending.nodup)
  refine ⟨perm_list hne l, ?_⟩
  cases l with
  | asWritten => exact ⟨bs, by rwa [list, toList_collect hne], hascending⟩
  | byKey => exact (List.isChain_map _).mpr (collectByKey_spec hne).2

theorem Items.listed_list {t : Ty} {ys : List (Value t)} {ctx : Context} {bs : List Bytes} (hbs : Wires ctx ys bs)
    (hascending : Ascending bs) (l : Listing) : (list ys l).Perm ys ∧ Listed ctx (list ys l) l := by
  have hne := hbs.pairwise_compare_ne hascending.nodup
  refine ⟨perm_list hne l, ?_⟩
  cases l with
  | asWritten => exact ⟨bs, by rwa [list, collect_eq hne], hascending⟩
  | byKey => exact (collectByKey_spec hne).2

theorem Value.restoredAs_setOf {t : Ty} {n : Nat} {xs : Items t n} {ys zs : List (Value t)} {bs : List Bytes}
    {ctx : Context} (hzs : xs.RestoredAs zs ctx.element) (hperm : ys.Perm zs) (hbs : Wires ctx.element ys bs)
    (hascending : Ascending bs) (l : Listing) :
    (set xs : Value (.set l t)).RestoredAs (setOf ys l) ctx := by
  obtain ⟨hlist, hlisted⟩ := Items.listed_list hbs hascending l
  rw [← Items.toList_ofList (Items.list ys l)] at hlist hlisted
  exact ⟨zs, hzs, hlist.trans hperm, hlisted⟩

namespace Decode

theorem judges_sortedEntries {k v : Ty} {key : Decode (Value k)} {value : Decode (Value v)} {ctx : Context}
    {es : Entries k v} {ps : List (Bytes × Bytes)} (hps : EntryWires ctx es.toList ps)
    (hcanonical : key.Canonical ctx)
    (hkey : ∀ e ∈ es.toList, ∀ b, e.1.wire ctx = .ok b →
      key.Judges b (e.1.Readable ctx) fun x => e.1.RestoredAs x ctx)
    (hvalue : ∀ e ∈ es.toList, ∀ b, e.2.wire ctx = .ok b →
      value.Judges b (e.2.Readable ctx) fun y => e.2.RestoredAs y ctx) (l : Listing) :
    (readEntries key value ps.length 0 none).Judges ((sortByKey ps).flatMap fun p => p.1 ++ p.2)
      (es.Readable ctx ∧ WrittenApart ctx (es.toList.map (·.1)))
      fun fs => ∃ gs, es.RestoredAs gs ctx ∧ (fs.list l).toList.Perm gs ∧
        Listed ctx ((fs.list l).toList.map (·.1)) l := by
  -- the entries in the order of their bytes, in which they are read
  obtain ⟨sorted, hperm, hsorted⟩ := forall₂_perm_right hps (sortByKey_perm ps).symm
  have hlength : sorted.length = ps.length := hperm.length_eq.symm.trans hps.length_eq
  have hmem : ∀ e ∈ sorted, e ∈ es.toList := fun e he => hperm.mem_iff.mpr he
  have hcond : ((∀ e ∈ sorted, e.1.Readable ctx ∧ e.2.Readable ctx) ∧
      AscendingFrom none ((sortByKey ps).map (·.1))) ↔
      es.Readable ctx ∧ WrittenApart ctx (es.toList.map (·.1)) := by
    rw [es.readable_iff, ascendingFrom_none, map_fst_sortByKey, ascending_sortBytes, writtenApart_iff hps.keys]
    simp only [hperm.mem_iff]
  have hread := judges_readEntries (P := fun x => x.Readable ctx) (R := fun y => y.Readable ctx)
    (Q := fun x x' => x.RestoredAs x' ctx ∧ ∀ c, x.wire ctx = .ok c → x'.wire ctx = .ok c)
    (S := fun y y' => y.RestoredAs y' ctx) hsorted
    (fun e he b hb => (hkey e (hmem e he) b hb).and_alike hcanonical hb)
    (fun e he => hvalue e (hmem e he)) hlength 0 none
  refine (hread.imp ?_).congr hcond
  intro hascending fs hfs
  have hkeys : Wires ctx (fs.toList.map (·.1)) ((sortByKey ps).map (·.1)) := by
    refine (EntryWires.keys hsorted).transfer ?_
    rw [List.forall₂_map_left_iff, List.forall₂_map_right_iff]
    exact hfs.imp fun e f hef => hef.1.2
  obtain ⟨hlist, hlisted⟩ := Entries.listed_list hkeys hascending.2 l
  obtain ⟨gs, hgs, hgf⟩ := List.perm_comp_forall₂ hperm (hfs.imp fun e f hef => And.intro hef.1.1 hef.2)
  exact ⟨gs, (es.restoredAs_iff gs ctx).mpr hgs, hlist.trans hgf.symm, hlisted⟩

end Decode

end Keys

/-! ### Records and unions -/

/-- The bytes of the value are read back as it is restored if it is readable, and refused if it is not. -/
def Value.ReadBack {t : Ty} (x : Value t) : Prop :=
  ∀ ctx b, x.wire ctx = .ok b →
    (t.decodeWith decodeBody ctx).Judges b (x.Readable ctx) fun y => x.RestoredAs y ctx

theorem RecordKind.restoredAs_restore {k : RecordKind} {name : String} {declared : Declaration} {t : Ty}
    {fs : Fields} (skipped : declared.skips = true) {xs ys : Record fs} {ctx : Context}
    (h : xs.RestoredAs k ys ctx) :
    (∀ x, (@Record.cons _ name declared t fs x xs).RestoredAs k (k.restore skipped ys) ctx) ∧
      ∀ unheld, (@Record.omitted _ name declared t fs unheld xs).RestoredAs k (k.restore skipped ys) ctx := by
  rw [k.restore_eq skipped]
  split
  · next y hdefault => exact ⟨fun x => ⟨by rwa [if_pos skipped], h⟩, fun _ => ⟨⟨skipped, hdefault⟩, h⟩⟩
  · next hdefault => exact ⟨fun x => ⟨⟨skipped, hdefault⟩, h⟩, fun _ => ⟨⟨skipped, hdefault⟩, h⟩⟩

theorem Record.judges : {fs : Fields} → (xs : Record fs) → (k : RecordKind) → (ctx : Context) →
    xs.All (fun _ x => x.ReadBack) → (b : Bytes) → xs.wire k.container ctx = .ok b →
      (fs.decodeWith decodeBody k ctx).Judges b (xs.Readable k.container ctx) fun ys => xs.RestoredAs k ys ctx
  | .nil, .nil, _, _, _, b, h => by
      cases h
      exact .of_reads (.pure _) trivial
  | .cons _ declared _ _, .cons x xs, k, ctx, ih, b, h => by
      obtain ⟨ihx, ihxs⟩ := ih
      have hrest := xs.judges k ctx ihxs
      rw [Record.wire_cons] at h
      rw [Fields.decodeWith, Record.Readable]
      split at h
      · next hskip =>
          rw [dif_pos hskip]
          refine Decode.Judges.congr (.map ((hrest b h).imp fun _ ys hys =>
            (RecordKind.restoredAs_restore hskip hys).1 x)) ?_
          simp [hskip]
      · next hskip =>
          obtain ⟨fieldCtx, u, v, hctx, hu, hv, rfl⟩ := h
          rw [dif_neg hskip]
          refine Decode.Judges.congr (.lift_bind hctx (.bind (ihx fieldCtx u hu) fun y hy =>
            .map ((hrest v hv).imp fun _ ys hys => ⟨?_, hys⟩))) ?_
          · rw [if_neg hskip, hctx]
            rintro _ ⟨⟩
            exact hy
          · rw [hctx]
            simp [hskip]
  | .cons .., .omitted _ xs, k, ctx, ih, b, h => by
      obtain ⟨hskip, hrest⟩ := Record.wire_omitted.mp h
      rw [Fields.decodeWith, dif_pos hskip]
      exact .map ((xs.judges k ctx ih b hrest).imp fun _ ys hys =>
        (RecordKind.restoredAs_restore hskip hys).2 _)

theorem Choice.payload_mem_types : {cs : Cases} → (c : Choice cs) → c.payload ∈ cs.types
  | .cons .., .here _ => List.mem_cons_self ..
  | .cons .., .there c => List.mem_cons_of_mem _ c.payload_mem_types

/-- Of the cases with one payload type the first is read, whichever was written. -/
theorem Cases.judges (union : String) {payload : Ty} {ctx : Context} {b : Bytes} {p : Prop}
    {Q : Value payload → Prop} (h : (payload.decodeWith decodeBody ctx).Judges b p Q) :
    (cs : Cases) → payload ∈ cs.types →
      (cs.decodeWith decodeBody union payload ctx).Judges b p
        fun d => (∃ heq : d.payload = payload, Q (heq ▸ d.value)) ∧ d.IsFirst
  | .nil, hmem => nomatch hmem
  | .cons _ t rest, hmem => by
      rw [Cases.decodeWith]
      split
      · next heq =>
          subst heq
          exact .map (h.imp fun _ x hx => ⟨⟨rfl, hx⟩, trivial⟩)
      · next hne =>
          have hrest := (List.mem_cons.mp hmem).resolve_left (Ne.symm hne)
          exact .map ((Cases.judges union h rest hrest).imp fun _ d hd =>
            ⟨hd.1, fun heq => hne (heq.trans hd.1.1), hd.2⟩)

/-! ### All values -/

theorem Items.judges_readRun {t : Ty} {n : Nat} {xs : Items t n} {ctx : Context} {b : Bytes}
    (ih : ∀ x ∈ xs.toList, x.ReadBack) (h : xs.wire ctx = .ok b) :
    (Decode.readRun t (t.decodeWith decodeBody ctx) n ctx).Judges b
      (xs.Readable ctx ∧ (WrittenAsNothing ctx xs.toList → n ≤ ctx.limits.maxBytesLen))
      fun ys => xs.RestoredAs ys.toList ctx := by
  obtain ⟨hbyte, bs, hbs, rfl⟩ := Items.wire_eq_ok.mp h
  have hread := Decode.judges_readRun hbs (fun x hx b hb => ih x hx ctx b hb) xs.length_toList
  refine (hread.imp fun _ ys hys => (xs.restoredAs_iff ys.toList ctx).mpr hys).congr ?_
  rw [xs.readable_iff]
  constructor
  · intro h
    obtain ⟨hreadable, hbound⟩ := h
    exact ⟨hreadable, fun hnothing => hbound (.inr hnothing)⟩
  · intro h
    obtain ⟨hreadable, hbound⟩ := h
    exact ⟨hreadable, fun hcase => hcase.elim hbyte hbound⟩

namespace Value

theorem readBack_present {t : Ty} {x : Value t} (h : x.ReadBack) : (present x).ReadBack := by
  intro ctx b hb
  rw [wire_present] at hb
  rw [Ty.decodeWith]
  split at hb
  · next hoptional =>
      obtain ⟨c, hc, rfl⟩ := hb
      rw [if_pos hoptional]
      exact .bind_of_reads (b := [1]) (Decode.reads_readBool true) (.map (h ctx.present c hc))
  · next hoptional =>
      have hctx : ctx.present = ctx := Context.present_eq (by simpa using hoptional)
      have hread := h ctx.present b (by rwa [hctx])
      have hdecode : t.decodeWith decodeBody ctx.present = t.decodeWith decodeBody ctx := by rw [hctx]
      rw [hdecode] at hread
      rw [if_neg hoptional]
      exact .map hread

theorem readBack_deque {t : Ty} {m n : Nat} {front : Items t m} {back : Items t n}
    (h : ∀ x ∈ front.toList ++ back.toList, x.ReadBack) : (deque front back).ReadBack := by
  intro ctx b hb
  obtain ⟨-, u, bs, hu, hbs, rfl⟩ := wire_deque.mp hb
  have hlength : (front.toList ++ back.toList).length = m + n := by
    rw [List.length_append, front.length_toList, back.length_toList]
  have hread := Decode.judges_readRun hbs (fun x hx b hb => h x hx ctx.element b hb) hlength
  refine .bind_of_reads (Decode.reads_readCount hu) (.map ((hread.imp fun _ ys hys => ?_).congr ?_))
  · have hfront := List.forall₂_take m hys
    have hback := List.forall₂_drop m hys
    rw [List.take_left' front.length_toList] at hfront
    rw [List.drop_left' front.length_toList] at hback
    refine ⟨ys.toList.take m, ys.toList.drop m, (front.restoredAs_iff _ _).mpr hfront,
      (back.restoredAs_iff _ _).mpr hback, ?_⟩
    rw [List.take_append_drop]
    exact List.append_nil _
  · rw [List.forall_mem_append, ← front.readable_iff, ← back.readable_iff]
    exact Iff.rfl

theorem readBack_union {name : String} {cs : Cases} {c : Choice cs} (h : c.value.ReadBack) :
    (union c : Value (.union name cs)).ReadBack := by
  intro ctx b hb
  obtain ⟨d, v, hd, hv, rfl⟩ := wire_union.mp hb
  obtain ⟨variant, hread, hpayload⟩ := Decode.reads_readVariant hd
  refine .bind_of_reads hread ?_
  rw [hpayload]
  refine .map (((Cases.judges name (h ctx.bare v hv) cs c.payload_mem_types).imp ?_).congr ?_)
  · exact fun _ d hd => ⟨(c.restoredAs_iff d ctx.bare).mpr hd.1, hd.2⟩
  · exact (c.readable_iff ctx.bare).symm

variable [LawfulKeys]

theorem readBack_map {l : Listing} {k v : Ty} {es : Entries k v}
    (h : ∀ e ∈ es.toList, e.1.ReadBack ∧ e.2.ReadBack) : (map es : Value (.map l k v)).ReadBack := by
  intro ctx b hb
  obtain ⟨ps, u, hps, hu, rfl⟩ := wire_map.mp hb
  have hcanonical := Ty.canonical_decodeWith (fun r ctx => r.body.canonical_decode ctx) k ctx.element
  have hread := Decode.judges_sortedEntries hps hcanonical (fun e he b hb => (h e he).1 ctx.element b hb)
    (fun e he b hb => (h e he).2 ctx.element b hb) l
  exact .map (.bind_of_reads (Decode.reads_readLen hu) hread)

theorem readBack_set {l : Listing} {t : Ty} {n : Nat} {xs : Items t n} (h : ∀ x ∈ xs.toList, x.ReadBack) :
    (set xs : Value (.set l t)).ReadBack := by
  intro ctx b hb
  obtain ⟨bs, u, hbs, hu, rfl⟩ := wire_set.mp hb
  have hcanonical := Ty.canonical_decodeWith (fun r ctx => r.body.canonical_decode ctx) t ctx.element
  have hread := Decode.judges_sortedSet hbs hcanonical (fun x hx b hb => h x hx ctx.element b hb) rfl
  refine .map (.bind_of_reads (Decode.reads_readLen hu) (.map (hread.imp fun _ ys hys => ?_)))
  obtain ⟨hsorted, hascending, zs, hzs, hperm⟩ := hys
  exact restoredAs_setOf hzs hperm hsorted hascending l

end Value

variable [LawfulKeys]

theorem Value.readBack {t : Ty} (x : Value t) : x.ReadBack := by
  induction x with
  | scalar x =>
      intro ctx b h
      obtain ⟨y, hread, hy⟩ := Scalar.reads_decode h
      exact .map (.of_reads hread hy)
  | absent =>
      intro ctx b h
      obtain ⟨hoptional, rfl⟩ := wire_absent.mp h
      rw [Ty.decodeWith, if_pos hoptional]
      exact .bind_of_reads (c := []) (Decode.reads_readBool false) (.of_reads (.pure _) trivial)
  | present x ih => exact readBack_present ih
  | pointer x ih => exact fun ctx b h => .map (ih ctx b h)
  | sequence xs ih =>
      intro ctx b h
      obtain ⟨u, v, hu, hv, rfl⟩ := wire_sequence.mp h
      exact .bind_of_reads (Decode.reads_readCount hu) (.map (Items.judges_readRun ih hv))
  | deque front back ihfront ihback =>
      exact readBack_deque (List.forall_mem_append.mpr ⟨ihfront, ihback⟩)
  | array xs ih => exact fun ctx b h => .map (Items.judges_readRun ih h)
  | map es ih => exact readBack_map ih
  | set xs ih => exact readBack_set ih
  | record xs ih => exact fun ctx b h => .map (xs.judges _ ctx ih b h)
  | union c ih => exact readBack_union ih
  | @recursive r x ih =>
      intro ctx b h
      -- the body is decoded afresh, by as many steps as the bytes left for it allow
      have hread : (decodeBody r ctx).Judges b (x.Readable ctx) fun y => x.RestoredAs y ctx := by
        rw [decodeBody, Ty.decode_eq]
        exact ih ctx b h
      exact .map hread

/-- The bytes of a readable value are decoded, whatever follows them: exactly they are taken, and the value
comes back as it is restored. -/
theorem Value.decode_encode {t : Ty} {x : Value t} {ctx : Context} {b : Bytes} (h : (x.encode ctx).bytes = .ok b)
    (hx : x.Readable ctx) : ∃ y, x.RestoredAs y ctx ∧ ∀ s, t.decode ctx (b ++ s) = .ok (y, s) := by
  obtain ⟨y, hread, hy⟩ := (x.readBack ctx b h).1 hx
  refine ⟨y, hy, fun s => ?_⟩
  rw [Ty.decode_eq]
  exact hread s

theorem Value.exists_decode_iff {t : Ty} {x : Value t} {ctx : Context} {b : Bytes}
    (h : (x.encode ctx).bytes = .ok b) : (∃ y, t.decode ctx b = .ok (y, [])) ↔ x.Readable ctx := by
  have hjudges := x.readBack ctx b h
  rw [← Ty.decode_eq] at hjudges
  constructor
  · intro h
    obtain ⟨y, hy⟩ := h
    by_contra hx
    obtain ⟨e, he⟩ := hjudges.2 hx []
    rw [List.append_nil, hy] at he
    exact nomatch he
  · intro hx
    obtain ⟨y, hread, -⟩ := hjudges.1 hx
    have hy := hread []
    rw [List.append_nil] at hy
    exact ⟨y, hy⟩

end Values

section Prices

/-- Prices by number, and a number that is skipped. -/
abbrev pricesType : Ty :=
  .record (.declared "Prices" .named)
    (.cons "byNumber" .none (.map (.asWritten .hash) .u16 (.scalar .decimal))
      (.cons "seen" (.valid { skip := true }) .u8 .nil))

def price (mantissa scale : Int) : Value (.scalar .decimal) := .scalar (s := .decimal) ⟨mantissa, scale⟩

def prices (es : List (Nat × Value (.scalar .decimal))) (seen : UInt8) : Value pricesType :=
  .record (.cons (.map (.ofList (es.map fun e => (word e.1, e.2)))) (.cons (.ofByte seen) .nil))

def pricesBytes : Bytes :=
  [2, 0, 0, 0] ++ ([0, 1] ++ 20 :: List.replicate 15 0) ++ ([1, 0] ++ 3 :: List.replicate 15 0)

/-- The prices 3.0 and 20, by the numbers 1 and 256. -/
theorem Value.decode_encode_prices :
    ((prices [(1, price 30 1), (256, price 2 (-1))] 7).encode (.start .empty)).bytes = .ok pricesBytes ∧
      (prices [(1, price 30 1), (256, price 2 (-1))] 7).RestoredAs (prices [(256, price 20 0), (1, price 3 0)] 0)
        (.start .empty) ∧
      Ty.decode _ (.start .empty) (pricesBytes ++ [9]) =
        .ok (prices [(256, price 20 0), (1, price 3 0)] 0, [9]) := by
  have h : ((prices [(1, price 30 1), (256, price 2 (-1))] 7).encode (.start .empty)).bytes =
      .ok pricesBytes := by cbv
  have hkeys (ctx : Context) : WrittenApart ctx [word 1, word 256] :=
    (writtenApart_iff (.cons rfl (.cons rfl .nil))).mpr (show [[1, 0], [0, 1]].Nodup by decide)
  have hreadable : (prices [(1, price 30 1), (256, price 2 (-1))] 7).Readable (.start .empty) :=
    ⟨fun _ _ _ => ⟨⟨⟨trivial, trivial⟩, ⟨trivial, trivial⟩, trivial⟩, hkeys _⟩,
      fun hskip => absurd hskip (by decide), trivial⟩
  have hdecode : Ty.decode _ (.start .empty) (pricesBytes ++ [9]) =
      .ok (prices [(256, price 20 0), (1, price 3 0)] 0, [9]) := by cbv
  obtain ⟨y, hrestored, hy⟩ := decode_encode h hreadable
  cases (hy [9]).symm.trans hdecode
  exact ⟨h, hrestored, hdecode⟩

end Prices

/-- The encoder writes bytes that decoding refuses exactly for values that are not readable, however keys are
compared. -/
theorem Value.decodes_iff_readable [Declarations] {t : Ty} {x : Value t} {ctx : Context} {b : Bytes}
    (h : (x.encode ctx).bytes = .ok b) : (∃ y, t.decode ctx b = .ok (y, [])) ↔ x.Readable ctx := by
  rw [(t.sameCourse_decode ctx).exists_ok_iff]
  exact @exists_decode_iff .derived Declarations.lawfulKeys_derived t x ctx b h

section Units

def units (n : Nat) : Value (.vector .unit) := .sequence (.replicate (.record .nil) n)

abbrev threeBytes : Context := (Context.start .empty).withLimits { maxBytesLen := 3 }

/-- Units take no bytes. Four of them exceed a ceiling of three as they are read, not as they are written. -/
theorem Value.decodes_iff_readable_units :
    ((units 4).encode threeBytes).bytes = .ok [4, 0, 0, 0] ∧
      (¬∃ y, Ty.decode (.vector .unit) threeBytes [4, 0, 0, 0] = .ok (y, [])) ∧
      ∃ y, Ty.decode (.vector .unit) threeBytes [3, 0, 0, 0] = .ok (y, []) := by
  have hnothing (ctx : Context) (x : Value .unit) : x.wire ctx = .ok [] := by
    cases x with
    | record xs =>
        cases xs
        rfl
  have h4 : ((units 4).encode threeBytes).bytes = .ok [4, 0, 0, 0] := rfl
  have h3 : ((units 3).encode threeBytes).bytes = .ok [3, 0, 0, 0] := rfl
  refine ⟨h4, fun hdecode => ?_, (decodes_iff_readable h3).mpr ?_⟩
  · have hbound := ((decodes_iff_readable h4).mp hdecode).2 fun x _ => hnothing _ x
    exact absurd hbound (by decide)
  · exact ⟨⟨trivial, trivial, trivial, trivial⟩, fun _ => Nat.le_refl 3⟩

end Units

end CanonicalWire
