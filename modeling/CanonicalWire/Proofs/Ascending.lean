import CanonicalWire.Proofs.Order

/-!
Sorted byte strings and sorted keys. Sorting by bytes has one outcome as long as the keys differ, and
the outcome is strictly ascending exactly then. A map that is filled entry by entry has no other keys and values than
these, and it keeps all entries as long as no two keys compare as equal, in the order given or in that of their keys.
-/

namespace CanonicalWire

/-- Byte strings in strictly ascending order. -/
def Ascending (bs : List Bytes) : Prop := bs.Pairwise (· < ·)

instance : DecidablePred Ascending := fun bs => inferInstanceAs (Decidable (bs.Pairwise (· < ·)))

theorem Ascending.nodup {bs : List Bytes} (h : Ascending bs) : bs.Nodup := by
  refine List.Pairwise.imp ?_ h
  rintro a _ hlt rfl
  exact List.lt_irrefl a hlt

theorem bytes_trichotomy {a b : Bytes} (hab : ¬a < b) (hba : ¬b < a) : a = b :=
  Std.Trichotomous.trichotomous a b hab hba

theorem not_lt_trans {a b c : Bytes} (hab : ¬b < a) (hbc : ¬c < b) : ¬c < a := by
  intro hca
  by_cases h : a < b
  · exact hbc (List.lt_trans hca h)
  · rw [bytes_trichotomy h hab] at hca
    exact hbc hca

theorem pairwise_sortBytes (bs : List Bytes) : (sortBytes bs).Pairwise fun a b => ¬b < a := by
  have h : (sortBytes bs).Pairwise fun a b => (!decide (b < a)) = true := List.pairwise_mergeSort
    (fun a b c hab hbc => by
      simp only [Bool.not_eq_true', decide_eq_false_iff_not] at hab hbc ⊢
      exact not_lt_trans hab hbc)
    (fun a b => by
      simp only [Bool.or_eq_true, Bool.not_eq_true', decide_eq_false_iff_not]
      by_cases h : b < a
      · exact .inr (List.lt_asymm h)
      · exact .inl h) bs
  exact h.imp fun hab => by simpa using hab

theorem sortBytes_perm (bs : List Bytes) : (sortBytes bs).Perm bs := List.mergeSort_perm bs _

theorem sortByKey_perm (ps : List (Bytes × Bytes)) : (sortByKey ps).Perm ps := List.mergeSort_perm ps _

theorem map_fst_sortByKey (ps : List (Bytes × Bytes)) :
    (sortByKey ps).map (·.1) = sortBytes (ps.map (·.1)) :=
  List.map_mergeSort fun _ _ _ _ => rfl

/-- Sorted byte strings are strictly ascending exactly if no two of them are equal. -/
theorem ascending_sortBytes {bs : List Bytes} : Ascending (sortBytes bs) ↔ bs.Nodup := by
  rw [← (sortBytes_perm bs).nodup_iff]
  refine ⟨Ascending.nodup, fun h => ?_⟩
  refine ((pairwise_sortBytes bs).and h).imp fun {a b} hab => ?_
  by_contra hlt
  exact hab.2 (bytes_trichotomy hlt hab.1)

theorem sortBytes_eq {bs cs : List Bytes} (hperm : bs.Perm cs) (hcs : Ascending cs) : sortBytes bs = cs := by
  have hbs : Ascending (sortBytes bs) := ascending_sortBytes.mpr (hperm.nodup_iff.mpr hcs.nodup)
  exact ((sortBytes_perm bs).trans hperm).eq_of_pairwise
    (fun a b _ _ hab hba => absurd hba (List.lt_asymm hab)) hbs hcs

theorem sortByKey_eq {ps qs : List (Bytes × Bytes)} (hperm : ps.Perm qs) (hqs : Ascending (qs.map (·.1))) :
    sortByKey ps = qs := by
  have hps : Ascending ((sortByKey ps).map (·.1)) := by
    rw [map_fst_sortByKey, ascending_sortBytes, (hperm.map _).nodup_iff]
    exact hqs.nodup
  exact ((sortByKey_perm ps).trans hperm).eq_of_pairwise
    (fun a b _ _ hab hba => absurd hba (List.lt_asymm hab)) (List.pairwise_map.mp hps) (List.pairwise_map.mp hqs)

/-- The order in which entries with different keys are given does not matter. -/
theorem sortByKey_congr {ps qs : List (Bytes × Bytes)} (hperm : ps.Perm qs) (hps : (ps.map (·.1)).Nodup) :
    sortByKey ps = sortByKey qs := by
  refine sortByKey_eq (hperm.trans (sortByKey_perm qs).symm) ?_
  rwa [map_fst_sortByKey, ascending_sortBytes, ← (hperm.map _).nodup_iff]

theorem sortBytes_congr {bs cs : List Bytes} (hperm : bs.Perm cs) (hbs : bs.Nodup) :
    sortBytes bs = sortBytes cs :=
  sortBytes_eq (hperm.trans (sortBytes_perm cs).symm) (ascending_sortBytes.mpr (hperm.nodup_iff.mp hbs))

/-! ### Insertion -/

/-- Elements put one by one into a store: what holds of each of them holds of all that the store has. -/
theorem foldl_covered {α σ : Type} (view : σ → List α) {P : α → Prop} {step : σ → α → σ}
    (hstep : ∀ s a, P a → (∀ b ∈ view s, P b) →
      (view (step s a)).length ≤ (view s).length + 1 ∧ ∀ b ∈ view (step s a), P b) {l : List α} :
    ∀ {s : σ}, (∀ a ∈ l, P a) → (∀ b ∈ view s, P b) →
      (view (l.foldl step s)).length ≤ (view s).length + l.length ∧ ∀ b ∈ view (l.foldl step s), P b := by
  induction l with
  | nil => exact fun _ hs => ⟨Nat.le_refl _, hs⟩
  | cons a l ih =>
      intro s hl hs
      obtain ⟨ha, hl⟩ := List.forall_mem_cons.mp hl
      obtain ⟨hlength, hall⟩ := hstep s a ha hs
      obtain ⟨hlengths, halls⟩ := ih hl hall
      refine ⟨hlengths.trans ?_, halls⟩
      rw [List.length_cons]
      omega

/-! ### Insertion by an order that can be exchanged -/

section Insertion

variable {α : Type} {cmp : α → α → Ordering}

theorem isChain_orderedInsert (hswap : ∀ a b, cmp b a = (cmp a b).swap) {a : α} {l : List α}
    (hne : ∀ b ∈ l, cmp a b ≠ .eq) (hl : l.IsChain (cmp · · = .lt)) :
    (l.orderedInsert (cmp · · = .lt) a).IsChain (cmp · · = .lt) := by
  have hgt {b : α} (hb : b ∈ l) (h : cmp a b ≠ .lt) : cmp b a = .lt := by
    rw [hswap a b]
    cases hab : cmp a b with
    | lt => exact absurd hab h
    | eq => exact absurd hab (hne b hb)
    | gt => rfl
  induction l with
  | nil => exact .singleton a
  | cons b l ih =>
      rw [List.orderedInsert_cons]
      split
      · next hlt => exact List.isChain_cons_cons.mpr ⟨hlt, hl⟩
      · next hnot =>
          have hrest := ih (fun c hc => hne c (List.mem_cons_of_mem _ hc)) hl.tail
            fun hc => hgt (List.mem_cons_of_mem _ hc)
          refine List.isChain_cons.mpr ⟨fun c hc => ?_, hrest⟩
          -- the head of the longer list is the inserted element or the head of the old one
          cases l with
          | nil =>
              cases hc
              exact hgt (List.mem_cons_self ..) hnot
          | cons d l =>
              rw [List.orderedInsert_cons] at hc
              split at hc
              · cases hc
                exact hgt (List.mem_cons_self ..) hnot
              · cases hc
                exact (List.isChain_cons_cons.mp hl).1

/-- Elements without two that compare as equal, put one by one into a store whose view is sorted. -/
theorem foldl_insert {σ : Type} (hswap : ∀ a b, cmp b a = (cmp a b).swap) (view : σ → List α) {step : σ → α → σ}
    (hstep : ∀ s a, (∀ b ∈ view s, cmp a b ≠ .eq) →
      view (step s a) = (view s).orderedInsert (cmp · · = .lt) a) {l : List α} :
    ∀ {s : σ}, l.Pairwise (cmp · · ≠ .eq) → (∀ a ∈ l, ∀ b ∈ view s, cmp a b ≠ .eq) →
      (view s).IsChain (cmp · · = .lt) →
      (view (l.foldl step s)).Perm (l ++ view s) ∧ (view (l.foldl step s)).IsChain (cmp · · = .lt) := by
  induction l with
  | nil => exact fun _ _ hchain => ⟨.refl _, hchain⟩
  | cons a l ih =>
      intro s hpairwise hne hchain
      obtain ⟨ha, hl⟩ := List.pairwise_cons.mp hpairwise
      obtain ⟨has, hls⟩ := List.forall_mem_cons.mp hne
      have hview := hstep s a has
      have hne' : ∀ c ∈ l, ∀ b ∈ view (step s a), cmp c b ≠ .eq := by
        intro c hc b hb
        rw [hview, List.mem_orderedInsert] at hb
        rcases hb with rfl | hb
        · rw [hswap b c]
          exact fun h => ha c hc (by simpa using h)
        · exact hls c hc b hb
      obtain ⟨hperm, hsorted⟩ := ih hl hne' (hview ▸ isChain_orderedInsert hswap has hchain)
      refine ⟨hperm.trans ?_, hsorted⟩
      rw [hview]
      exact ((List.perm_orderedInsert _ a (view s)).append_left l).trans List.perm_middle

/-- Such elements put one by one into a store that takes them up last. -/
theorem foldl_concat {σ : Type} (hswap : ∀ a b, cmp b a = (cmp a b).swap) (view : σ → List α) {step : σ → α → σ}
    (hstep : ∀ s a, (∀ b ∈ view s, cmp a b ≠ .eq) → view (step s a) = view s ++ [a]) {l : List α} :
    ∀ {s : σ}, l.Pairwise (cmp · · ≠ .eq) → (∀ a ∈ l, ∀ b ∈ view s, cmp a b ≠ .eq) →
      view (l.foldl step s) = view s ++ l := by
  induction l with
  | nil => exact fun _ _ => (List.append_nil _).symm
  | cons a l ih =>
      intro s hpairwise hne
      obtain ⟨ha, hl⟩ := List.pairwise_cons.mp hpairwise
      obtain ⟨has, hls⟩ := List.forall_mem_cons.mp hne
      have hview := hstep s a has
      have hne' : ∀ c ∈ l, ∀ b ∈ view (step s a), cmp c b ≠ .eq := by
        intro c hc b hb
        rw [hview, List.mem_append, List.mem_singleton] at hb
        rcases hb with hb | rfl
        · exact hls c hc b hb
        · rw [hswap b c]
          exact fun h => ha c hc (by simpa using h)
      rw [List.foldl_cons, ih hl hne', hview, List.append_assoc, List.singleton_append]

end Insertion

/-! ### Collecting decoded entries and items -/

section Collecting

variable [Declarations]

theorem Entries.covered_put {k v : Ty} {P : Value k → Prop} {Q : Value v → Prop} {key : Value k} {value : Value v}
    (hkey : P key) (hvalue : Q value) : (es : Entries k v) → (∀ e ∈ es.toList, P e.1 ∧ Q e.2) →
      (es.put key value).toList.length ≤ es.toList.length + 1 ∧ ∀ e ∈ (es.put key value).toList, P e.1 ∧ Q e.2
  | .nil, _ => ⟨Nat.le_refl 1, List.forall_mem_singleton.mpr ⟨hkey, hvalue⟩⟩
  | .cons key' value' rest, h => by
      obtain ⟨hhead, hrest⟩ := List.forall_mem_cons.mp h
      rw [Entries.put]
      split
      · exact ⟨Nat.le_succ _, List.forall_mem_cons.mpr ⟨⟨hhead.1, hvalue⟩, hrest⟩⟩
      · obtain ⟨hlength, hall⟩ := covered_put hkey hvalue rest hrest
        exact ⟨Nat.succ_le_succ hlength, List.forall_mem_cons.mpr ⟨hhead, hall⟩⟩

theorem Entries.covered_place {k v : Ty} {P : Value k → Prop} {Q : Value v → Prop} {key : Value k} {value : Value v}
    (hkey : P key) (hvalue : Q value) : (es : Entries k v) → (∀ e ∈ es.toList, P e.1 ∧ Q e.2) →
      (es.place key value).toList.length ≤ es.toList.length + 1 ∧
        ∀ e ∈ (es.place key value).toList, P e.1 ∧ Q e.2
  | .nil, _ => ⟨Nat.le_refl 1, List.forall_mem_singleton.mpr ⟨hkey, hvalue⟩⟩
  | .cons key' value' rest, h => by
      obtain ⟨hhead, hrest⟩ := List.forall_mem_cons.mp h
      rw [Entries.place]
      split
      · exact ⟨Nat.le_refl _, List.forall_mem_cons.mpr ⟨⟨hkey, hvalue⟩, h⟩⟩
      · exact ⟨Nat.le_succ _, List.forall_mem_cons.mpr ⟨⟨hhead.1, hvalue⟩, hrest⟩⟩
      · obtain ⟨hlength, hall⟩ := covered_place hkey hvalue rest hrest
        exact ⟨Nat.succ_le_succ hlength, List.forall_mem_cons.mpr ⟨hhead, hall⟩⟩

theorem Items.covered_putInto {t : Ty} {P : Value t → Prop} {x : Value t} (hx : P x) : (xs : List (Value t)) →
    (∀ y ∈ xs, P y) → (putInto x xs).length ≤ xs.length + 1 ∧ ∀ y ∈ putInto x xs, P y
  | [], _ => ⟨Nat.le_refl 1, List.forall_mem_singleton.mpr hx⟩
  | y :: ys, h => by
      obtain ⟨hy, hys⟩ := List.forall_mem_cons.mp h
      rw [putInto]
      split
      · exact ⟨Nat.le_succ _, h⟩
      · obtain ⟨hlength, hall⟩ := covered_putInto hx ys hys
        exact ⟨Nat.succ_le_succ hlength, List.forall_mem_cons.mpr ⟨hy, hall⟩⟩

theorem Items.covered_placeInto {t : Ty} {P : Value t → Prop} {x : Value t} (hx : P x) : (xs : List (Value t)) →
    (∀ y ∈ xs, P y) → (placeInto x xs).length ≤ xs.length + 1 ∧ ∀ y ∈ placeInto x xs, P y
  | [], _ => ⟨Nat.le_refl 1, List.forall_mem_singleton.mpr hx⟩
  | y :: ys, h => by
      obtain ⟨hy, hys⟩ := List.forall_mem_cons.mp h
      rw [placeInto]
      split
      · exact ⟨Nat.le_refl _, List.forall_mem_cons.mpr ⟨hx, h⟩⟩
      · exact ⟨Nat.le_succ _, h⟩
      · obtain ⟨hlength, hall⟩ := covered_placeInto hx ys hys
        exact ⟨Nat.succ_le_succ hlength, List.forall_mem_cons.mpr ⟨hy, hall⟩⟩

/-- However keys are compared, a map has no more entries than it is made of, and no other keys and values. -/
theorem Entries.covered_list {k v : Ty} {P : Value k → Prop} {Q : Value v → Prop} {es : Entries k v}
    (h : ∀ e ∈ es.toList, P e.1 ∧ Q e.2) (l : Listing) :
    (es.list l).toList.length ≤ es.toList.length ∧ ∀ e ∈ (es.list l).toList, P e.1 ∧ Q e.2 := by
  rw [← Nat.zero_add es.toList.length]
  cases l with
  | asWritten => exact foldl_covered toList (s := .nil) (fun s e he => s.covered_put he.1 he.2) h nofun
  | byKey => exact foldl_covered toList (s := .nil) (fun s e he => s.covered_place he.1 he.2) h nofun

theorem Items.covered_list {t : Ty} {P : Value t → Prop} {xs : List (Value t)} (h : ∀ x ∈ xs, P x) (l : Listing) :
    (list xs l).length ≤ xs.length ∧ ∀ x ∈ list xs l, P x := by
  rw [← Nat.zero_add xs.length]
  cases l with
  | asWritten => exact foldl_covered id (s := []) (fun s x hx => covered_putInto hx s) h nofun
  | byKey => exact foldl_covered id (s := []) (fun s x hx => covered_placeInto hx s) h nofun

theorem Entries.toList_put {k v : Ty} (key : Value k) (value : Value v) : (es : Entries k v) →
    (∀ e ∈ es.toList, key.compare e.1 ≠ .eq) → (es.put key value).toList = es.toList ++ [(key, value)]
  | .nil, _ => rfl
  | .cons key' value' rest, h => by
      obtain ⟨hkey, hrest⟩ := List.forall_mem_cons.mp h
      rw [Entries.put]
      split
      · next heq => exact absurd heq hkey
      · rw [Entries.toList, Entries.toList_put key value rest hrest, Entries.toList, List.cons_append]

theorem Items.putInto_eq {t : Ty} (x : Value t) : (xs : List (Value t)) → (∀ y ∈ xs, x.compare y ≠ .eq) →
    putInto x xs = xs ++ [x]
  | [], _ => rfl
  | y :: ys, h => by
      obtain ⟨hy, hys⟩ := List.forall_mem_cons.mp h
      rw [putInto]
      split
      · next heq => exact absurd heq hy
      · rw [Items.putInto_eq x ys hys, List.cons_append]

theorem Entries.toList_place {k v : Ty} (key : Value k) (value : Value v) : (es : Entries k v) →
    (∀ e ∈ es.toList, key.compare e.1 ≠ .eq) →
      (es.place key value).toList = es.toList.orderedInsert (fun e f => e.1.compare f.1 = .lt) (key, value)
  | .nil, _ => rfl
  | .cons key' value' rest, h => by
      obtain ⟨hkey, hrest⟩ := List.forall_mem_cons.mp h
      rw [Entries.place, Entries.toList, List.orderedInsert_cons]
      split
      · next hlt => rw [if_pos hlt, Entries.toList, Entries.toList]
      · next heq => exact absurd heq hkey
      · next hgt =>
          rw [if_neg (by simp [hgt]), Entries.toList, Entries.toList_place key value rest hrest]

theorem Items.placeInto_eq {t : Ty} (x : Value t) : (xs : List (Value t)) → (∀ y ∈ xs, x.compare y ≠ .eq) →
    placeInto x xs = xs.orderedInsert (fun x y => x.compare y = .lt) x
  | [], _ => rfl
  | y :: ys, h => by
      obtain ⟨hy, hys⟩ := List.forall_mem_cons.mp h
      rw [placeInto, List.orderedInsert_cons]
      split
      · next hlt => rw [if_pos hlt]
      · next heq => exact absurd heq hy
      · next hgt => rw [if_neg (by simp [hgt]), Items.placeInto_eq x ys hys]

variable [LawfulKeys]

theorem Entries.toList_collect {k v : Ty} {es : List (Value k × Value v)}
    (h : es.Pairwise fun e f => e.1.compare f.1 ≠ .eq) : (collect es).toList = es := by
  have hconcat := foldl_concat (s := .nil) (fun e f => e.1.compare_swap f.1) (Entries.toList (k := k) (v := v))
    (fun s e => s.toList_put e.1 e.2) h (fun _ _ _ hb => nomatch hb)
  simpa [Entries.toList, Entries.collect] using hconcat

theorem Items.collect_eq {t : Ty} {xs : List (Value t)} (h : xs.Pairwise fun x y => x.compare y ≠ .eq) :
    collect xs = xs := by
  have hconcat := foldl_concat (s := []) Value.compare_swap id (fun s x => Items.putInto_eq x s) h
    (fun _ _ _ hb => nomatch hb)
  simpa [Items.collect] using hconcat

theorem Entries.collectByKey_spec {k v : Ty} {es : List (Value k × Value v)}
    (h : es.Pairwise fun e f => e.1.compare f.1 ≠ .eq) :
    (collectByKey es).toList.Perm es ∧ (collectByKey es).toList.IsChain fun e f => e.1.compare f.1 = .lt := by
  have hspec := foldl_insert (s := .nil) (fun e f => e.1.compare_swap f.1) (Entries.toList (k := k) (v := v))
    (fun s e => s.toList_place e.1 e.2) h (fun _ _ _ hb => nomatch hb) .nil
  simpa [Entries.toList, Entries.collectByKey] using hspec

theorem Items.collectByKey_spec {t : Ty} {xs : List (Value t)} (h : xs.Pairwise fun x y => x.compare y ≠ .eq) :
    (collectByKey xs).Perm xs ∧ (collectByKey xs).IsChain fun x y => x.compare y = .lt := by
  have hspec := foldl_insert (s := []) Value.compare_swap id
    (fun s x => Items.placeInto_eq x s) h (fun _ _ _ hb => nomatch hb) .nil
  simpa [Items.collectByKey] using hspec

/-- Entries with different keys are all kept, in whatever order they are listed. -/
theorem Entries.perm_list {k v : Ty} {es : Entries k v} (h : es.toList.Pairwise fun e f => e.1.compare f.1 ≠ .eq) :
    (l : Listing) → (es.list l).toList.Perm es.toList
  | .asWritten _ => by rw [list, toList_collect h]
  | .byKey => (collectByKey_spec h).1

theorem Items.perm_list {t : Ty} {xs : List (Value t)} (h : xs.Pairwise fun x y => x.compare y ≠ .eq) :
    (l : Listing) → (list xs l).Perm xs
  | .asWritten _ => by rw [list, collect_eq h]
  | .byKey => (collectByKey_spec h).1

end Collecting

end CanonicalWire
