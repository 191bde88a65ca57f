import CanonicalWire.Proofs.Canonical
import CanonicalWire.Proofs.Width

/-!
What decoding asks of a value that was written, and what it makes of it. A written value is read back if
no two keys or items of one map or set are written alike, and if the runs that decoding holds to the
ceiling, but encoding does not, keep within it. It comes back as the same value up to skipped fields, the
listing of maps and sets, the scale of decimals, the cut of deques and the case of a union's payload.
-/

namespace CanonicalWire

section Written

variable [Definitions]

/-- All of the values are written as no bytes. -/
def WrittenAsNothing {t : Ty} (ctx : Context) (xs : List (Value t)) : Prop := ∀ x ∈ xs, x.wire ctx = .ok []

mutual
/-- What decoding asks of a value beyond its being written. Items of type `u8` in a deque are held to the
ceiling together, and so is the number of items that take no bytes. -/
def Value.Readable : {t : Ty} → Value t → Context → Prop
  | .scalar _, .scalar _, _ => True
  | .option _, .absent, _ => True
  | .option _, .present x, ctx => x.Readable ctx.present
  | .pointer _ _, .pointer x, ctx => x.Readable ctx
  | .sequence _ _, .sequence (n := n) xs, ctx => xs.Readable ctx.element ∧
      (WrittenAsNothing ctx.element xs.toList → n ≤ ctx.limits.maxBytesLen)
  | .deque t, .deque (m := m) (n := n) front back, ctx =>
      (front.Readable ctx.element ∧ back.Readable ctx.element) ∧
        (t = .byte ∨ WrittenAsNothing ctx.element (front.toList ++ back.toList) → m + n ≤ ctx.limits.maxBytesLen)
  | .array _ n, .array xs, ctx => xs.Readable ctx.element ∧
      (WrittenAsNothing ctx.element xs.toList → n ≤ ctx.limits.maxBytesLen)
  | .map _ _ _, .map es, ctx =>
      es.Readable ctx.element ∧ WrittenApart ctx.element (es.toList.map (·.1))
  | .set _ _, .set xs, ctx => xs.Readable ctx.element ∧ WrittenApart ctx.element xs.toList
  | .record k _, .record xs, ctx => xs.Readable k.container ctx
  | .union _ _, .union c, ctx => c.Readable ctx.bare
  | .recursive _, .recursive x, ctx => x.Readable ctx
def Items.Readable : {t : Ty} → {n : Nat} → Items t n → Context → Prop
  | _, _, .nil, _ => True
  | _, _, .cons x xs, ctx => x.Readable ctx ∧ xs.Readable ctx
def Entries.Readable : {k v : Ty} → Entries k v → Context → Prop
  | _, _, .nil, _ => True
  | _, _, .cons key value rest, ctx => (key.Readable ctx ∧ value.Readable ctx) ∧ rest.Readable ctx
/-- Nothing is asked of a field that is skipped. -/
def Record.Readable : {fs : Fields} → Record fs → Option String → Context → Prop
  | .nil, .nil, _, _ => True
  | .cons _ declared _ _, .cons x xs, container, ctx =>
      (declared.skips = false → ∀ fieldCtx, declared.enter container ctx = .ok fieldCtx → x.Readable fieldCtx) ∧
        xs.Readable container ctx
  | .cons _ _ _ _, .omitted _ xs, container, ctx => xs.Readable container ctx
def Choice.Readable : {cs : Cases} → Choice cs → Context → Prop
  | .cons _ _ _, .here x, ctx => x.Readable ctx
  | .cons _ _ _, .there c, ctx => c.Readable ctx
end

theorem Items.readable_iff : {t : Ty} → {n : Nat} → (xs : Items t n) → (ctx : Context) →
    (xs.Readable ctx ↔ ∀ x ∈ xs.toList, x.Readable ctx)
  | _, _, .nil, _ => by simp [Items.Readable, Items.toList]
  | _, _, .cons x xs, ctx => by
      rw [Items.Readable, Items.toList, List.forall_mem_cons, xs.readable_iff ctx]

theorem Entries.readable_iff : {k v : Ty} → (es : Entries k v) → (ctx : Context) →
    (es.Readable ctx ↔ ∀ e ∈ es.toList, e.1.Readable ctx ∧ e.2.Readable ctx)
  | _, _, .nil, _ => by simp [Entries.Readable, Entries.toList]
  | _, _, .cons key value rest, ctx => by
      rw [Entries.Readable, Entries.toList, List.forall_mem_cons, rest.readable_iff ctx]

theorem Choice.readable_iff : {cs : Cases} → (c : Choice cs) → (ctx : Context) →
    (c.Readable ctx ↔ c.value.Readable ctx)
  | .cons .., .here _, _ => Iff.rfl
  | .cons .., .there c, ctx => c.readable_iff ctx

end Written

variable [Declarations]

/-- The keys of a decoded map, or the items of a decoded set, are in the order that its type lists them in. -/
def Listed {t : Ty} (ctx : Context) (xs : List (Value t)) : Listing → Prop
  | .asWritten _ => ∃ bs, Wires ctx xs bs ∧ Ascending bs
  | .byKey => xs.IsChain fun x y => x.compare y = .lt

/-- The default that a skipped field comes back with, if it comes back with anything. -/
def RecordKind.default? : RecordKind → (t : Ty) → Option (Value t)
  | .declared _ _, t => t.default?
  | _, _ => none

theorem RecordKind.restore_eq (k : RecordKind) {name : String} {declared : Declaration} {t : Ty} {fs : Fields}
    (skipped : declared.skips = true) (xs : Record fs) :
    (k.restore skipped xs : Record (.cons name declared t fs)) =
      match k.default? t with
      | some x => .cons x xs
      | none => .omitted (Declaration.holds_eq_false_of_skips skipped) xs := by
  cases k with
  | tuple | assembled => rfl
  | declared =>
      simp only [default?]
      unfold restore
      cases t.default? <;> rfl

/-- No case before this one has the same payload type. -/
def Choice.IsFirst : {cs : Cases} → Choice cs → Prop
  | .cons _ _ _, .here _ => True
  | .cons _ t _, .there c => t ≠ c.payload ∧ c.IsFirst

mutual
/-- What a written value comes back as. -/
def Value.RestoredAs : {t : Ty} → Value t → Value t → Context → Prop
  | .scalar s, .scalar x, .scalar y, _ => s.RestoredAs x y
  | .option _, .absent, .absent, _ => True
  | .option _, .present x, .present y, ctx => x.RestoredAs y ctx.present
  | .option _, .absent, .present _, _ => False
  | .option _, .present _, .absent, _ => False
  | .pointer _ _, .pointer x, .pointer y, ctx => x.RestoredAs y ctx
  | .sequence _ _, .sequence xs, .sequence ys, ctx => xs.RestoredAs ys.toList ctx.element
  | .deque _, .deque front back, .deque front' back', ctx => ∃ ys zs, front.RestoredAs ys ctx.element ∧
      back.RestoredAs zs ctx.element ∧ front'.toList ++ back'.toList = ys ++ zs
  | .array _ _, .array xs, .array ys, ctx => xs.RestoredAs ys.toList ctx.element
  | .map l _ _, .map es, .map fs, ctx => ∃ gs, es.RestoredAs gs ctx.element ∧ fs.toList.Perm gs ∧
      Listed ctx.element (fs.toList.map (·.1)) l
  | .set l _, .set xs, .set ys, ctx => ∃ zs, xs.RestoredAs zs ctx.element ∧ ys.toList.Perm zs ∧
      Listed ctx.element ys.toList l
  | .record k _, .record xs, .record ys, ctx => xs.RestoredAs k ys ctx
  | .union _ _, .union c, .union d, ctx => c.RestoredAs d ctx.bare ∧ d.IsFirst
  | .recursive _, .recursive x, .recursive y, ctx => x.RestoredAs y ctx
termination_by structural _ x => x
def Items.RestoredAs : {t : Ty} → {n : Nat} → Items t n → List (Value t) → Context → Prop
  | _, _, .nil, [], _ => True
  | _, _, .cons x xs, y :: ys, ctx => x.RestoredAs y ctx ∧ xs.RestoredAs ys ctx
  | _, _, _, _, _ => False
termination_by structural _ _ xs => xs
def Entries.RestoredAs : {k v : Ty} → Entries k v → List (Value k × Value v) → Context → Prop
  | _, _, .nil, [], _ => True
  | _, _, .cons key value rest, f :: fs, ctx =>
      (key.RestoredAs f.1 ctx ∧ value.RestoredAs f.2 ctx) ∧ rest.RestoredAs fs ctx
  | _, _, _, _, _ => False
termination_by structural _ _ es => es
/-- A skipped field holds its default, or nothing if it has none. -/
def Record.RestoredAs : {fs : Fields} → Record fs → RecordKind → Record fs → Context → Prop
  | .nil, .nil, _, .nil, _ => True
  | .cons _ declared t _, .cons x xs, k, .cons y ys, ctx =>
      (if declared.skips then k.default? t = some y
        else ∀ fieldCtx, declared.enter k.container ctx = .ok fieldCtx → x.RestoredAs y fieldCtx) ∧
        xs.RestoredAs k ys ctx
  | .cons _ declared t _, .cons _ xs, k, .omitted _ ys, ctx =>
      (declared.skips = true ∧ k.default? t = none) ∧ xs.RestoredAs k ys ctx
  | .cons _ declared t _, .omitted _ xs, k, .cons y ys, ctx =>
      (declared.skips = true ∧ k.default? t = some y) ∧ xs.RestoredAs k ys ctx
  | .cons _ declared t _, .omitted _ xs, k, .omitted _ ys, ctx =>
      (declared.skips = true ∧ k.default? t = none) ∧ xs.RestoredAs k ys ctx
termination_by structural _ xs => xs
/-- The payloads have one type, and the second is what the first comes back as. -/
def Choice.RestoredAs : {cs ds : Cases} → Choice cs → Choice ds → Context → Prop
  | .cons _ t _, _, .here x, d, ctx => ∃ h : d.payload = t, x.RestoredAs (h ▸ d.value) ctx
  | .cons _ _ _, _, .there c, d, ctx => c.RestoredAs d ctx
termination_by structural _ _ c => c
end

theorem Items.restoredAs_iff : {t : Ty} → {n : Nat} → (xs : Items t n) → (ys : List (Value t)) → (ctx : Context) →
    (xs.RestoredAs ys ctx ↔ List.Forall₂ (fun x y => x.RestoredAs y ctx) xs.toList ys)
  | _, _, .nil, [], _ => by simp [Items.RestoredAs, Items.toList]
  | _, _, .nil, _ :: _, _ => by simp [Items.RestoredAs, Items.toList]
  | _, _, .cons _ _, [], _ => by simp [Items.RestoredAs, Items.toList]
  | _, _, .cons x xs, y :: ys, ctx => by
      rw [Items.RestoredAs, Items.toList, List.forall₂_cons, xs.restoredAs_iff ys ctx]

theorem Entries.restoredAs_iff : {k v : Ty} → (es : Entries k v) → (fs : List (Value k × Value v)) →
    (ctx : Context) → (es.RestoredAs fs ctx ↔
      List.Forall₂ (fun e f => e.1.RestoredAs f.1 ctx ∧ e.2.RestoredAs f.2 ctx) es.toList fs)
  | _, _, .nil, [], _ => by simp [Entries.RestoredAs, Entries.toList]
  | _, _, .nil, _ :: _, _ => by simp [Entries.RestoredAs, Entries.toList]
  | _, _, .cons _ _ _, [], _ => by simp [Entries.RestoredAs, Entries.toList]
  | _, _, .cons _ _ rest, _ :: fs, ctx => by
      rw [Entries.RestoredAs, Entries.toList, List.forall₂_cons, rest.restoredAs_iff fs ctx]

theorem Choice.restoredAs_iff : {cs ds : Cases} → (c : Choice cs) → (d : Choice ds) → (ctx : Context) →
    (c.RestoredAs d ctx ↔ ∃ h : d.payload = c.payload, c.value.RestoredAs (h ▸ d.value) ctx)
  | .cons .., _, .here _, _, _ => Iff.rfl
  | .cons .., _, .there c, d, ctx => c.restoredAs_iff d ctx

end CanonicalWire
