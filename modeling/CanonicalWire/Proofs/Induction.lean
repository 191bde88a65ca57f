import CanonicalWire.Codec

/-!
Induction over values and over types. Both are mutual families; here each former comes with the
hypothesis for all its parts at once, so that a property of values or of types is a single induction.
-/

namespace CanonicalWire

section Values

variable [Definitions]

/-- Every field that holds something has the property. -/
def Record.All (motive : (t : Ty) → Value t → Prop) : {fs : Fields} → Record fs → Prop
  | .nil, .nil => True
  | .cons .., .cons x xs => motive _ x ∧ xs.All motive
  | .cons .., .omitted _ xs => xs.All motive

theorem Record.all_of_forall {motive : (t : Ty) → Value t → Prop} (h : ∀ t x, motive t x) :
    {fs : Fields} → (xs : Record fs) → xs.All motive
  | .nil, .nil => trivial
  | .cons .., .cons _ xs => ⟨h _ _, xs.all_of_forall h⟩
  | .cons .., .omitted _ xs => xs.all_of_forall h

/-- The payload of a case. -/
def Choice.value : {cs : Cases} → (c : Choice cs) → Value c.payload
  | .cons .., .here x => x
  | .cons .., .there c => c.value

@[elab_as_elim, induction_eliminator]
theorem Value.induct {motive : (t : Ty) → Value t → Prop}
    (scalar : ∀ {s : Scalar} (x : s.Carrier), motive (.scalar s) (.scalar x))
    (absent : ∀ {t : Ty}, motive (.option t) .absent)
    (present : ∀ {t : Ty} (x : Value t), motive t x → motive (.option t) (.present x))
    (pointer : ∀ {p : Indirection} {t : Ty} (x : Value t), motive t x → motive (.pointer p t) (.pointer x))
    (sequence : ∀ {k : SequenceKind} {t : Ty} {n : Nat} (xs : Items t n),
      (∀ x ∈ xs.toList, motive t x) → motive (.sequence k t) (.sequence xs))
    (deque : ∀ {t : Ty} {m n : Nat} (front : Items t m) (back : Items t n),
      (∀ x ∈ front.toList, motive t x) → (∀ x ∈ back.toList, motive t x) →
        motive (.deque t) (.deque front back))
    (array : ∀ {t : Ty} {n : Nat} (xs : Items t n),
      (∀ x ∈ xs.toList, motive t x) → motive (.array t n) (.array xs))
    (map : ∀ {l : Listing} {k v : Ty} (es : Entries k v),
      (∀ e ∈ es.toList, motive k e.1 ∧ motive v e.2) → motive (.map l k v) (.map es))
    (set : ∀ {l : Listing} {t : Ty} {n : Nat} (xs : Items t n),
      (∀ x ∈ xs.toList, motive t x) → motive (.set l t) (.set xs))
    (record : ∀ {k : RecordKind} {fs : Fields} (xs : Record fs),
      xs.All motive → motive (.record k fs) (.record xs))
    (union : ∀ {name : String} {cs : Cases} (c : Choice cs),
      motive c.payload c.value → motive (.union name cs) (.union c))
    (recursive : ∀ {r : Recursive} (x : Value r.body),
      motive r.body x → motive (.recursive r) (.recursive x))
    {t : Ty} (x : Value t) : motive t x :=
  @Value.rec _ motive (fun t _ xs => ∀ x ∈ xs.toList, motive t x)
    (fun k v es => ∀ e ∈ es.toList, motive k e.1 ∧ motive v e.2) (fun _ xs => xs.All motive)
    (fun _ c => motive c.payload c.value)
    scalar absent present pointer sequence deque array map set record union recursive
    (fun _ hx => nomatch hx) (fun _ _ hx hxs => List.forall_mem_cons.mpr ⟨hx, hxs⟩)
    (fun _ he => nomatch he) (fun _ _ _ hkey hvalue hrest => List.forall_mem_cons.mpr ⟨⟨hkey, hvalue⟩, hrest⟩)
    trivial (fun _ _ hx hxs => ⟨hx, hxs⟩) (fun _ _ hxs => hxs)
    (fun _ hx => hx) (fun _ hc => hc) t x

end Values

@[elab_as_elim, induction_eliminator]
theorem Ty.induct {motive : Ty → Prop}
    (scalar : ∀ s, motive (.scalar s))
    (option : ∀ t, motive t → motive (.option t))
    (pointer : ∀ p t, motive t → motive (.pointer p t))
    (sequence : ∀ k t, motive t → motive (.sequence k t))
    (deque : ∀ t, motive t → motive (.deque t))
    (array : ∀ t n, motive t → motive (.array t n))
    (map : ∀ l k v, motive k → motive v → motive (.map l k v))
    (set : ∀ l t, motive t → motive (.set l t))
    (record : ∀ k fs, (∀ t ∈ fs.types, motive t) → motive (.record k fs))
    (union : ∀ name cs, (∀ t ∈ cs.types, motive t) → motive (.union name cs))
    (recursive : ∀ r, motive (.recursive r)) (t : Ty) : motive t :=
  @Ty.rec motive (fun fs => ∀ t ∈ fs.types, motive t) (fun cs => ∀ t ∈ cs.types, motive t)
    scalar option pointer sequence deque array map set record union recursive
    (fun _ ht => nomatch ht) (fun _ _ _ _ ht hrest => List.forall_mem_cons.mpr ⟨ht, hrest⟩)
    (fun _ ht => nomatch ht) (fun _ _ _ ht hrest => List.forall_mem_cons.mpr ⟨ht, hrest⟩) t

end CanonicalWire
