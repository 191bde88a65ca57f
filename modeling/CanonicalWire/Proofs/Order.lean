import CanonicalWire.Catalogue
import CanonicalWire.Proofs.Scalars

/-!
The order of values. In the derived order, exchanging two values swaps the outcome, and values that compare as equal
are written alike where both are written at all. They need not be the same value: skipped fields, the scale of a
decimal and the split of a deque do not show in the wire form. Of other orders that keys may be compared in, no more
than that is assumed.
-/

namespace CanonicalWire

theorem compareLex_swap {α : Type} {cmp : α → α → Ordering} :
    {xs : List α} → (∀ x ∈ xs, ∀ y, cmp y x = (cmp x y).swap) → (ys : List α) →
      List.compareLex cmp ys xs = (List.compareLex cmp xs ys).swap
  | [], _, [] => rfl
  | [], _, _ :: _ => rfl
  | _ :: _, _, [] => rfl
  | x :: xs, h, y :: ys => by
      obtain ⟨hx, hxs⟩ := List.forall_mem_cons.mp h
      rw [List.compareLex_cons_cons, List.compareLex_cons_cons, hx, compareLex_swap hxs, Ordering.swap_then]

theorem forall₂_of_compareLex_eq {α : Type} {cmp : α → α → Ordering} :
    {xs : List α} → {ys : List α} → List.compareLex cmp xs ys = .eq →
      List.Forall₂ (fun x y => cmp x y = .eq) xs ys
  | [], [], _ => .nil
  | [], _ :: _, h => nomatch h
  | _ :: _, [], h => nomatch h
  | x :: xs, y :: ys, h => by
      rw [List.compareLex_cons_cons, Ordering.then_eq_eq] at h
      exact .cons h.1 (forall₂_of_compareLex_eq h.2)

/-! ### Types without parts -/

theorem compare_swap {α : Type} [Ord α] [Std.OrientedOrd α] (a b : α) :
    compare b a = (compare a b).swap := Std.OrientedCmp.eq_swap

theorem Decimal.compare_swap (a b : Decimal) : b.compare a = (a.compare b).swap := by
  rw [Decimal.compare_eq, Decimal.compare_eq]
  exact CanonicalWire.compare_swap _ _

theorem Scalar.compare_swap (s : Scalar) (x y : s.Carrier) : s.compare y x = (s.compare x y).swap := by
  cases s with
  | bool => exact CanonicalWire.compare_swap (α := Bool) x y
  | int k =>
      simp only [Scalar.compare]
      split <;> exact CanonicalWire.compare_swap _ _
  | u128 => exact CanonicalWire.compare_swap (α := Nat) _ _
  | i128 => exact CanonicalWire.compare_swap (α := Int) _ _
  | natural => exact CanonicalWire.compare_swap (α := Nat) x y
  | integer => exact CanonicalWire.compare_swap (α := Int) x y
  | decimal => exact Decimal.compare_swap x y
  | uint | text | bytes | uuid => exact CanonicalWire.compare_swap (α := Bytes) _ _

theorem eq_of_compare {α : Type} [Ord α] [Std.LawfulEqOrd α] {a b : α} (h : compare a b = .eq) : a = b :=
  Std.LawfulEqCmp.eq_of_compare h

/-- Decimals that denote the same integer have the same integer part. -/
theorem Decimal.truncate_eq_of_compare {a b : Decimal} (ha : a.isInteger = true) (hb : b.isInteger = true)
    (h : a.compare b = .eq) : a.truncate = b.truncate := by
  rw [Decimal.compare_eq, Decimal.toRat_eq_truncate ha, Decimal.toRat_eq_truncate hb, compare_eq_iff_eq] at h
  exact Int.cast_injective h

theorem Scalar.bytes_eq_of_compare {s : Scalar} {x y : s.Carrier} (h : s.compare x y = .eq) {ctx : Context}
    {b c : Bytes} (hb : (s.encode x ctx).bytes = .ok b) (hc : (s.encode y ctx).bytes = .ok c) : b = c := by
  have hsame (heq : s.encode x ctx = s.encode y ctx) : b = c :=
    Except.ok.inj (hb.symm.trans ((congrArg Encode.bytes heq).trans hc))
  have same (heq : x = y) : b = c := hsame (heq ▸ rfl)
  cases s with
  | bool => exact same (eq_of_compare (α := Bool) h)
  | int k =>
      simp only [Scalar.compare] at h
      split at h
      · exact same (BitVec.eq_of_toInt_eq (eq_of_compare h))
      · exact same (BitVec.eq_of_toNat_eq (eq_of_compare h))
  | u128 => exact same (BitVec.eq_of_toNat_eq (eq_of_compare h))
  | i128 => exact same (BitVec.eq_of_toInt_eq (eq_of_compare h))
  | uint n =>
      have hbytes : (Uint.toLE x).bytes = (Uint.toLE y).bytes := List.reverse_injective (eq_of_compare h)
      exact hsame (congrArg Encode.put hbytes)
  | natural => exact same (eq_of_compare (α := Nat) h)
  | integer => exact same (eq_of_compare (α := Int) h)
  | decimal =>
      obtain ⟨hx, hwx⟩ := Encode.bytes_writeDecimal_eq_ok.mp hb
      obtain ⟨hy, hwy⟩ := Encode.bytes_writeDecimal_eq_ok.mp hc
      rw [Decimal.truncate_eq_of_compare hx hy h] at hwx
      exact Except.ok.inj (hwx.symm.trans hwy)
  | text =>
      exact hsame (congrArg (Encode.writeByteRun · ctx) (eq_of_compare h))
  | bytes => exact same (eq_of_compare (α := Bytes) h)
  | uuid =>
      have hbytes : Block.bytes x = Block.bytes y := eq_of_compare h
      exact same (Block.ext hbytes)

section Values

variable [Definitions]

/-! ### Items and entries are compared as lists -/

theorem Items.lexCompare_eq : {t : Ty} → {m n : Nat} → (xs : Items t m) → (ys : Items t n) →
    xs.lexCompare ys = List.compareLex Value.lexCompare xs.toList ys.toList
  | _, _, _, .nil, .nil => rfl
  | _, _, _, .nil, .cons _ _ => rfl
  | _, _, _, .cons _ _, .nil => rfl
  | _, _, _, .cons x xs, .cons y ys => by
      rw [Items.toList, Items.toList, List.compareLex_cons_cons, ← xs.lexCompare_eq ys]
      rfl

theorem Items.lexCompareThen_eq {t : Ty} {k : Nat} (back : Items t k) :
    {m n : Nat} → (front : Items t m) → (ys : Items t n) →
      front.lexCompareThen (fun _ rest => back.lexCompare rest) ys =
        List.compareLex Value.lexCompare (front.toList ++ back.toList) ys.toList
  | _, _, .nil, ys => back.lexCompare_eq ys
  | _, _, .cons x front, .nil => rfl
  | _, _, .cons x front, .cons y ys => by
      rw [Items.toList, Items.toList, List.cons_append, List.compareLex_cons_cons,
        ← Items.lexCompareThen_eq back front ys]
      rfl

theorem Items.toList_append {t : Ty} {n : Nat} (ys : Items t n) : {m : Nat} → (xs : Items t m) →
    (xs.append ys).toList = xs.toList ++ ys.toList
  | _, .nil => rfl
  | _, .cons x xs => congrArg (x :: ·) (Items.toList_append ys xs)

/-- Entries by their keys, and by their values where the keys are equal. -/
def lexCompareEntries {k v : Ty} (e f : Value k × Value v) : Ordering :=
  (e.1.lexCompare f.1).then (e.2.lexCompare f.2)

theorem Entries.lexCompare_eq : {k v : Ty} → (es fs : Entries k v) →
    es.lexCompare fs = List.compareLex lexCompareEntries es.toList fs.toList
  | _, _, .nil, .nil => rfl
  | _, _, .nil, .cons _ _ _ => rfl
  | _, _, .cons _ _ _, .nil => rfl
  | _, _, .cons k v rest, .cons k' v' rest' => by
      rw [Entries.toList, Entries.toList, List.compareLex_cons_cons, ← rest.lexCompare_eq rest']
      rfl

theorem Value.lexCompare_sequence {k : SequenceKind} {t : Ty} {m n : Nat} (xs : Items t m) (ys : Items t n) :
    (Value.sequence xs : Value (.sequence k t)).lexCompare (.sequence ys) =
      List.compareLex Value.lexCompare xs.toList ys.toList := xs.lexCompare_eq ys

theorem Value.lexCompare_deque {t : Ty} {m n m' n' : Nat} (front : Items t m) (back : Items t n)
    (front' : Items t m') (back' : Items t n') :
    (Value.deque front back).lexCompare (.deque front' back') =
      List.compareLex Value.lexCompare (front.toList ++ back.toList) (front'.toList ++ back'.toList) := by
  rw [← back'.toList_append front']
  exact back.lexCompareThen_eq front (front'.append back')

theorem Value.lexCompare_array {t : Ty} {n : Nat} (xs ys : Items t n) :
    (Value.array xs).lexCompare (.array ys) = List.compareLex Value.lexCompare xs.toList ys.toList :=
  xs.lexCompare_eq ys

theorem Value.lexCompare_map {l : Listing} {k v : Ty} (es fs : Entries k v) :
    (Value.map es : Value (.map l k v)).lexCompare (.map fs) = List.compareLex lexCompareEntries es.toList fs.toList :=
  es.lexCompare_eq fs

theorem Value.lexCompare_set {l : Listing} {t : Ty} {m n : Nat} (xs : Items t m) (ys : Items t n) :
    (Value.set xs : Value (.set l t)).lexCompare (.set ys) = List.compareLex Value.lexCompare xs.toList ys.toList :=
  xs.lexCompare_eq ys

/-! ### Exchanging two values -/

theorem Record.lexCompare_swap : {fs : Fields} → (xs ys : Record fs) →
    xs.All (fun _ x => ∀ y, y.lexCompare x = (x.lexCompare y).swap) → ys.lexCompare xs = (xs.lexCompare ys).swap
  | .nil, .nil, .nil, _ => rfl
  | .cons .., .cons x xs, .cons y ys, h => by
      obtain ⟨hx, hxs⟩ := h
      rw [Record.lexCompare, Record.lexCompare, hx, xs.lexCompare_swap ys hxs, Ordering.swap_then]
  | .cons .., .cons _ _, .omitted _ _, _ => rfl
  | .cons .., .omitted _ _, .cons _ _, _ => rfl
  | .cons .., .omitted _ xs, .omitted _ ys, h => xs.lexCompare_swap ys h

theorem Choice.lexCompare_swap : {cs : Cases} → (c d : Choice cs) →
    (∀ y, y.lexCompare c.value = (c.value.lexCompare y).swap) → d.lexCompare c = (c.lexCompare d).swap
  | .cons .., .here _, .here y, h => h y
  | .cons .., .here _, .there _, _ => rfl
  | .cons .., .there _, .here _, _ => rfl
  | .cons .., .there c, .there d, h => c.lexCompare_swap d h

theorem Value.lexCompare_swap {t : Ty} (x y : Value t) : y.lexCompare x = (x.lexCompare y).swap := by
  induction x with
  | scalar x =>
      cases y with
      | scalar y => exact Scalar.compare_swap _ x y
  | absent => cases y <;> rfl
  | present x ih =>
      cases y with
      | absent => rfl
      | present y => exact ih y
  | pointer x ih =>
      cases y with
      | pointer y => exact ih y
  | sequence xs ih =>
      cases y with
      | sequence ys =>
          rw [Value.lexCompare_sequence, Value.lexCompare_sequence]
          exact compareLex_swap ih _
  | deque front back ihfront ihback =>
      cases y with
      | deque front' back' =>
          rw [Value.lexCompare_deque, Value.lexCompare_deque]
          exact compareLex_swap (List.forall_mem_append.mpr ⟨ihfront, ihback⟩) _
  | array xs ih =>
      cases y with
      | array ys =>
          rw [Value.lexCompare_array, Value.lexCompare_array]
          exact compareLex_swap ih _
  | map es ih =>
      cases y with
      | map fs =>
          rw [Value.lexCompare_map, Value.lexCompare_map]
          refine compareLex_swap (fun e he f => ?_) _
          obtain ⟨hkey, hvalue⟩ := ih e he
          rw [lexCompareEntries, lexCompareEntries, hkey, hvalue, Ordering.swap_then]
  | set xs ih =>
      cases y with
      | set ys =>
          rw [Value.lexCompare_set, Value.lexCompare_set]
          exact compareLex_swap ih _
  | record xs ih =>
      cases y with
      | record ys => exact xs.lexCompare_swap ys ih
  | union c ih =>
      cases y with
      | union d => exact c.lexCompare_swap d ih
  | recursive x ih =>
      cases y with
      | recursive y => exact ih y

/-! ### Values that compare as equal -/

/-- Where both values are written, they are written alike. -/
def Value.WrittenAlike {t : Ty} (x y : Value t) : Prop :=
  ∀ ctx b c, x.wire ctx = .ok b → y.wire ctx = .ok c → b = c

theorem Wires.unique {t : Ty} {ctx : Context} {xs ys : List (Value t)} {bs cs : List Bytes}
    (hbs : Wires ctx xs bs) (h : List.Forall₂ Value.WrittenAlike xs ys) (hcs : Wires ctx ys cs) : bs = cs := by
  induction h generalizing bs cs with
  | nil =>
      cases hbs
      cases hcs
      rfl
  | cons hxy _ ih =>
      cases hbs with
      | cons hb hbs =>
          cases hcs with
          | cons hc hcs => rw [hxy ctx _ _ hb hc, ih hbs hcs]

theorem EntryWires.unique {k v : Ty} {ctx : Context} {es fs : List (Value k × Value v)}
    {ps qs : List (Bytes × Bytes)} (hps : EntryWires ctx es ps)
    (h : List.Forall₂ (fun e f => e.1.WrittenAlike f.1 ∧ e.2.WrittenAlike f.2) es fs)
    (hqs : EntryWires ctx fs qs) : ps = qs := by
  induction h generalizing ps qs with
  | nil =>
      cases hps
      cases hqs
      rfl
  | cons hef _ ih =>
      cases hps with
      | cons hp hps =>
          cases hqs with
          | cons hq hqs =>
              rw [Prod.ext (hef.1 ctx _ _ hp.1 hq.1) (hef.2 ctx _ _ hp.2 hq.2), ih hps hqs]

theorem forall₂_writtenAlike {t : Ty} {xs ys : List (Value t)}
    (ih : ∀ x ∈ xs, ∀ y, x.lexCompare y = .eq → x.WrittenAlike y)
    (h : List.compareLex Value.lexCompare xs ys = .eq) : List.Forall₂ Value.WrittenAlike xs ys :=
  forall₂_imp_of_mem (forall₂_of_compareLex_eq h) ih

theorem Items.wire_unique {t : Ty} {m n : Nat} {xs : Items t m} {ys : Items t n}
    (h : List.Forall₂ Value.WrittenAlike xs.toList ys.toList) {ctx : Context} {b c : Bytes}
    (hb : xs.wire ctx = .ok b) (hc : ys.wire ctx = .ok c) : b = c := by
  obtain ⟨-, bs, hbs, rfl⟩ := Items.wire_eq_ok.mp hb
  obtain ⟨-, cs, hcs, rfl⟩ := Items.wire_eq_ok.mp hc
  rw [hbs.unique h hcs]

theorem Items.length_eq {t : Ty} {m n : Nat} {xs : Items t m} {ys : Items t n} {r : Value t → Value t → Prop}
    (h : List.Forall₂ r xs.toList ys.toList) : m = n := by
  have hlength := h.length_eq
  rwa [xs.length_toList, ys.length_toList] at hlength

theorem Record.writtenAlike_of_lexCompare : {fs : Fields} → (xs ys : Record fs) →
    xs.All (fun _ x => ∀ y, x.lexCompare y = .eq → x.WrittenAlike y) → xs.lexCompare ys = .eq →
      ∀ container ctx b c, xs.wire container ctx = .ok b → ys.wire container ctx = .ok c → b = c
  | .nil, .nil, .nil, _, _, _, _, _, _, hb, hc => Except.ok.inj (hb.symm.trans hc)
  | .cons .., .cons x xs, .cons y ys, h, heq, container, ctx, b, c, hb, hc => by
      obtain ⟨hx, hxs⟩ := h
      rw [Record.lexCompare, Ordering.then_eq_eq] at heq
      have hrest := xs.writtenAlike_of_lexCompare ys hxs heq.2 container ctx
      rw [Record.wire_cons] at hb hc
      split at hb
      · next hskip => exact hrest b c hb (by rwa [if_pos hskip] at hc)
      · next hskip =>
          rw [if_neg hskip] at hc
          obtain ⟨fieldCtx, u, v, hctx, hu, hv, rfl⟩ := hb
          obtain ⟨fieldCtx', u', v', hctx', hu', hv', rfl⟩ := hc
          cases hctx.symm.trans hctx'
          rw [hx y heq.1 fieldCtx u u' hu hu', hrest v v' hv hv']
  | .cons .., .cons _ _, .omitted _ _, _, heq, _, _, _, _, _, _ => nomatch heq
  | .cons .., .omitted _ _, .cons _ _, _, heq, _, _, _, _, _, _ => nomatch heq
  | .cons .., .omitted _ xs, .omitted _ ys, h, heq, container, ctx, b, c, hb, hc =>
      xs.writtenAlike_of_lexCompare ys h heq container ctx b c (Record.wire_omitted.mp hb).2
        (Record.wire_omitted.mp hc).2

theorem Choice.writtenAlike_of_lexCompare : {cs : Cases} → (c d : Choice cs) →
    (∀ y, c.value.lexCompare y = .eq → c.value.WrittenAlike y) → c.lexCompare d = .eq →
      c.payload = d.payload ∧ ∀ ctx a b, c.value.wire ctx = .ok a → d.value.wire ctx = .ok b → a = b
  | .cons .., .here _, .here y, h, heq => ⟨rfl, h y heq⟩
  | .cons .., .here _, .there _, _, heq => nomatch heq
  | .cons .., .there _, .here _, _, heq => nomatch heq
  | .cons .., .there c, .there d, h, heq => c.writtenAlike_of_lexCompare d h heq

namespace Value

theorem writtenAlike_present {t : Ty} {x y : Value t} (h : x.WrittenAlike y) :
    (present x).WrittenAlike (present y) := by
  intro ctx b c hb hc
  rw [wire_present] at hb hc
  split at hb
  · next hoptional =>
      rw [if_pos hoptional] at hc
      obtain ⟨b, hb, rfl⟩ := hb
      obtain ⟨c, hc, rfl⟩ := hc
      rw [h _ b c hb hc]
  · next hoptional =>
      rw [if_neg hoptional] at hc
      exact h ctx b c hb hc

theorem writtenAlike_sequence {k : SequenceKind} {t : Ty} {m n : Nat} {xs : Items t m} {ys : Items t n}
    (h : List.Forall₂ WrittenAlike xs.toList ys.toList) :
    (sequence xs : Value (.sequence k t)).WrittenAlike (sequence ys) := by
  intro ctx b c hb hc
  obtain rfl := Items.length_eq h
  obtain ⟨u, v, hu, hv, rfl⟩ := wire_sequence.mp hb
  obtain ⟨u', v', hu', hv', rfl⟩ := wire_sequence.mp hc
  cases hu.symm.trans hu'
  rw [Items.wire_unique h hv hv']

theorem writtenAlike_deque {t : Ty} {m n p q : Nat} {front : Items t m} {back : Items t n} {front' : Items t p}
    {back' : Items t q}
    (h : List.Forall₂ WrittenAlike (front.toList ++ back.toList) (front'.toList ++ back'.toList)) :
    (deque front back).WrittenAlike (deque front' back') := by
  intro ctx b c hb hc
  have hlength := h.length_eq
  simp only [List.length_append, Items.length_toList] at hlength
  obtain ⟨-, u, bs, hu, hbs, rfl⟩ := wire_deque.mp hb
  obtain ⟨-, u', cs, hu', hcs, rfl⟩ := wire_deque.mp hc
  rw [hlength] at hu
  cases hu.symm.trans hu'
  rw [hbs.unique h hcs]

theorem writtenAlike_map {l : Listing} {k v : Ty} {es fs : Entries k v}
    (h : List.Forall₂ (fun e f => e.1.WrittenAlike f.1 ∧ e.2.WrittenAlike f.2) es.toList fs.toList) :
    (map es : Value (.map l k v)).WrittenAlike (map fs) := by
  intro ctx b c hb hc
  obtain ⟨ps, u, hps, hu, rfl⟩ := wire_map.mp hb
  obtain ⟨qs, u', hqs, hu', rfl⟩ := wire_map.mp hc
  cases hps.unique h hqs
  cases hu.symm.trans hu'
  rfl

theorem writtenAlike_set {l : Listing} {t : Ty} {m n : Nat} {xs : Items t m} {ys : Items t n}
    (h : List.Forall₂ WrittenAlike xs.toList ys.toList) :
    (set xs : Value (.set l t)).WrittenAlike (set ys) := by
  intro ctx b c hb hc
  obtain ⟨bs, u, hbs, hu, rfl⟩ := wire_set.mp hb
  obtain ⟨cs, u', hcs, hu', rfl⟩ := wire_set.mp hc
  cases hbs.unique h hcs
  cases hu.symm.trans hu'
  rfl

theorem writtenAlike_union {name : String} {cs : Cases} {c d : Choice cs} (hpayload : c.payload = d.payload)
    (h : ∀ ctx a b, c.value.wire ctx = .ok a → d.value.wire ctx = .ok b → a = b) :
    (union c : Value (.union name cs)).WrittenAlike (union d) := by
  intro ctx a b ha hb
  obtain ⟨i, u, hi, hu, rfl⟩ := wire_union.mp ha
  obtain ⟨j, v, hj, hv, rfl⟩ := wire_union.mp hb
  rw [hpayload] at hi
  cases hi.symm.trans hj
  rw [h _ u v hu hv]

end Value

theorem Value.writtenAlike_of_lexCompare {t : Ty} (x y : Value t) (h : x.lexCompare y = .eq) : x.WrittenAlike y := by
  induction x with
  | scalar x =>
      cases y with
      | scalar y => exact fun ctx b c hb hc => Scalar.bytes_eq_of_compare h hb hc
  | absent =>
      cases y with
      | absent => exact fun ctx b c hb hc => Except.ok.inj (hb.symm.trans hc)
      | present y => cases h
  | present x ih =>
      cases y with
      | absent => cases h
      | present y => exact writtenAlike_present (ih y h)
  | pointer x ih =>
      cases y with
      | pointer y => exact ih y h
  | sequence xs ih =>
      cases y with
      | sequence ys =>
          rw [Value.lexCompare_sequence] at h
          exact writtenAlike_sequence (forall₂_writtenAlike ih h)
  | deque front back ihfront ihback =>
      cases y with
      | deque front' back' =>
          rw [Value.lexCompare_deque] at h
          have hall := List.forall_mem_append.mpr ⟨ihfront, ihback⟩
          exact writtenAlike_deque (forall₂_writtenAlike hall h)
  | array xs ih =>
      cases y with
      | array ys =>
          rw [Value.lexCompare_array] at h
          exact fun ctx b c hb hc => Items.wire_unique (forall₂_writtenAlike ih h) hb hc
  | map es ih =>
      cases y with
      | map fs =>
          rw [Value.lexCompare_map] at h
          refine writtenAlike_map (forall₂_imp_of_mem (forall₂_of_compareLex_eq h) fun e he f hef => ?_)
          obtain ⟨hkey, hvalue⟩ := Ordering.then_eq_eq.mp hef
          exact ⟨(ih e he).1 f.1 hkey, (ih e he).2 f.2 hvalue⟩
  | set xs ih =>
      cases y with
      | set ys =>
          rw [Value.lexCompare_set] at h
          exact writtenAlike_set (forall₂_writtenAlike ih h)
  | record xs ih =>
      cases y with
      | record ys => exact xs.writtenAlike_of_lexCompare ys ih h _
  | union c ih =>
      cases y with
      | union d =>
          obtain ⟨hpayload, halike⟩ := c.writtenAlike_of_lexCompare d ih h
          exact writtenAlike_union hpayload halike
  | recursive x ih =>
      cases y with
      | recursive y => exact ih y h

end Values

/-! ### What is assumed of keys -/

/-- What is assumed of how the keys of maps and the items of sets are compared: exchanging two of them swaps the
outcome, and two that are equal are written alike. -/
class LawfulKeys [Declarations] : Prop where
  compare_swap {t : Ty} (x y : Value t) : y.compare x = (x.compare y).swap
  writtenAlike_of_compare {t : Ty} {x y : Value t} : x.compare y = .eq → x.WrittenAlike y

section Keys

variable [Declarations]

/-- The derived order is such an order. -/
theorem LawfulKeys.of_lexCompare (h : ∀ {t : Ty} (x y : Value t), x.compare y = x.lexCompare y) : LawfulKeys where
  compare_swap x y := by rw [h, h, x.lexCompare_swap y]
  writtenAlike_of_compare hxy := Value.writtenAlike_of_lexCompare _ _ (h _ _ ▸ hxy)

variable [LawfulKeys] {t : Ty}

theorem Value.compare_swap (x y : Value t) : y.compare x = (x.compare y).swap := LawfulKeys.compare_swap x y

theorem Value.writtenAlike_of_compare {x y : Value t} (h : x.compare y = .eq) : x.WrittenAlike y :=
  LawfulKeys.writtenAlike_of_compare h

end Keys

instance Catalogue.lawfulKeys : LawfulKeys := .of_lexCompare fun _ _ => rfl

end CanonicalWire
