import CanonicalWire.Proofs.Ascending

/-!
Items, keys and entries as they are read. Each loop is stated twice: what its success says about the
bytes taken, for any relation between an item and its bytes, and what it does on the bytes that the items
were written as.
-/

namespace CanonicalWire

namespace Decode

/-- Keys in ascending order that all come after the one read before. -/
def AscendingFrom (previous : Option Bytes) (bs : List Bytes) : Prop := Ascending (previous.toList ++ bs)

theorem ascendingFrom_none {bs : List Bytes} : AscendingFrom none bs ↔ Ascending bs := Iff.rfl

theorem ascendingFrom_nil (previous : Option Bytes) : AscendingFrom previous [] := by
  cases previous <;> simp [AscendingFrom, Ascending]

theorem ascendingFrom_cons {previous : Option Bytes} {b : Bytes} {bs : List Bytes} :
    AscendingFrom previous (b :: bs) ↔ (∀ earlier ∈ previous, earlier < b) ∧ AscendingFrom (some b) bs := by
  cases previous with
  | none => simp [AscendingFrom]
  | some earlier =>
      simp only [AscendingFrom, Ascending, Option.toList_some, List.singleton_append, List.pairwise_cons,
        List.forall_mem_cons, Option.mem_some_iff, forall_eq']
      constructor
      · intro h
        obtain ⟨⟨hb, -⟩, hbs⟩ := h
        exact ⟨hb, hbs⟩
      · intro h
        obtain ⟨hb, hbs, hpairwise⟩ := h
        exact ⟨⟨hb, fun c hc => List.lt_trans hb (hbs c hc)⟩, hbs, hpairwise⟩

end Decode

variable [Definitions]

theorem Items.toList_ofLength {t : Ty} : {n : Nat} → (xs : List (Value t)) → (h : xs.length = n) →
    (ofLength xs h).toList = xs
  | 0, [], _ => rfl
  | _ + 1, x :: xs, h => congrArg (x :: ·) (Items.toList_ofLength xs (Nat.succ.inj h))

theorem Items.toList_ofList {t : Ty} (xs : List (Value t)) : (ofList xs).toList = xs :=
  Items.toList_ofLength xs rfl

theorem Items.toList_ofBlock {n : Nat} (block : Block n) : (ofBlock block).toList = block.bytes.map .ofByte :=
  Items.toList_ofLength _ _

theorem Items.bytes_ofBlock {n : Nat} (block : Block n) : (ofBlock block).bytes = block.bytes := by
  obtain ⟨bytes, rfl⟩ := block
  induction bytes with
  | nil => rfl
  | cons b bytes ih => exact congrArg (b :: ·) ih

theorem wires_ofByte (ctx : Context) : (bs : Bytes) → Wires ctx (bs.map .ofByte) (bs.map ([·]))
  | [] => .nil
  | b :: bs => .cons (Value.wire_byte b ctx) (wires_ofByte ctx bs)

namespace Decode

/-- Each value that comes back is written as the bytes that were taken for it. -/
def Canonical {t : Ty} (d : Decode (Value t)) (ctx : Context) : Prop :=
  d.Accepts fun x taken => x.wire ctx = .ok taken

variable {t : Ty} {item : Decode (Value t)} {ctx : Context} {Q : Value t → Bytes → Prop}

/-- An item that holds the number of items to the ceiling if it takes no bytes. -/
def weighed (item : Decode (Value t)) (count : Nat) (ctx : Context) : Decode (Value t) := fun input =>
  item input >>= fun r =>
    if r.2.length = input.length then (checkLength count ctx).map fun _ => r else .ok r

theorem readEach_succ (item : Decode (Value t)) (count : Nat) (ctx : Context) (len : Nat) :
    readEach item count ctx (len + 1) = weighed item count ctx >>= fun x =>
      readEach item count ctx len >>= fun xs => pure (.cons x xs) := by
  funext input
  rw [readEach, bind_apply, bind_apply, weighed]
  show item input >>= _ = _
  cases item input with
  | error e => rfl
  | ok r =>
      show (if r.2.length = input.length then _ else _ : Decode (Items t (len + 1))) r.2 =
        (if r.2.length = input.length then _ else _ : Except CodecError (Value t × Bytes)) >>= _
      split
      · cases checkLength count ctx <;> rfl
      · rfl

theorem weighed_of_ok {b rest : Bytes} {x : Value t} (h : item (b ++ rest) = .ok (x, rest)) (count : Nat)
    (ctx : Context) : weighed item count ctx (b ++ rest) =
      if b = [] then (checkLength count ctx).map fun _ => (x, rest) else .ok (x, rest) := by
  have hsame : rest.length = (b ++ rest).length ↔ b = [] := by
    rw [List.length_append, ← List.length_eq_zero_iff]
    omega
  rw [weighed, h]
  show (if rest.length = (b ++ rest).length then _ else _) = _
  simp only [hsame]

theorem accepts_weighed (hitem : item.Accepts Q) (count : Nat) (ctx : Context) :
    (weighed item count ctx).Accepts fun x b => Q x b ∧ (b = [] → count ≤ ctx.limits.maxBytesLen) := by
  intro input x rest h
  have hrun := h
  rw [weighed, bind_eq_ok] at hrun
  obtain ⟨r, hr, hif⟩ := hrun
  obtain ⟨b, rfl, hQ⟩ := hitem _ _ _ hr
  rw [weighed_of_ok hr] at h
  split at h
  · next hb =>
      cases hcheck : checkLength count ctx with
      | error e =>
          rw [hcheck] at h
          cases h
      | ok u =>
          rw [hcheck] at h
          cases h
          exact ⟨b, rfl, hQ, fun _ => checkLength_eq_ok.mp hcheck⟩
  · next hb =>
      cases h
      exact ⟨b, rfl, hQ, fun hnil => absurd hnil hb⟩

theorem accepts_readEach (hitem : item.Accepts Q) (count : Nat) (ctx : Context) : (len : Nat) →
    (readEach item count ctx len).Accepts fun xs taken => ∃ bs, List.Forall₂ Q xs.toList bs ∧
      ([] ∈ bs → count ≤ ctx.limits.maxBytesLen) ∧ taken = bs.flatten
  | 0 => .pure ⟨[], .nil, nofun, rfl⟩
  | len + 1 => by
      rw [readEach_succ]
      refine (accepts_weighed hitem count ctx).bind fun x b hx => ?_
      refine .map ((accepts_readEach hitem count ctx len).mono ?_)
      rintro xs _ ⟨bs, hbs, hcount, rfl⟩
      refine ⟨b :: bs, .cons hx.1 hbs, fun hmem => ?_, rfl⟩
      rcases List.mem_cons.mp hmem with hb | hmem
      · exact hx.2 hb.symm
      · exact hcount hmem

theorem accepts_readBlock (len : Nat) (ctx : Context) :
    (readBlock len ctx).Accepts fun xs taken => xs.wire ctx = .ok taken := by
  refine .lift_bind fun _ hcheck => .map ((accepts_take len).mono ?_)
  rintro block _ rfl
  refine Items.wire_eq_ok.mpr ⟨fun _ => checkLength_eq_ok.mp hcheck, block.bytes.map ([·]), ?_, ?_⟩
  · rw [Items.toList_ofBlock]
    exact wires_ofByte ctx block.bytes
  · exact (List.flatMap_singleton' block.bytes).symm

theorem readBlock_of_le {len : Nat} (h : len ≤ ctx.limits.maxBytesLen) :
    readBlock len ctx = take len >>= fun block => pure (.ofBlock block) := by
  rw [readBlock, checkLength_of_le h]
  rfl

theorem readBlock_of_lt {len : Nat} (h : ctx.limits.maxBytesLen < len) (input : Bytes) :
    readBlock len ctx input = .error (.oversizedLength len ctx.limits.maxBytesLen) := by
  rw [readBlock, checkLength_of_lt h]
  rfl

theorem readRun_of_ne (ht : t ≠ .byte) (item : Decode (Value t)) (len : Nat) (ctx : Context) :
    readRun t item len ctx = readEach item len ctx len := by
  rw [readRun]
  exact fun _ h _ => ht h

theorem accepts_readRun (hitem : item.Canonical ctx) (len : Nat) :
    (readRun t item len ctx).Accepts fun xs taken => xs.wire ctx = .ok taken := by
  by_cases ht : t = .byte
  · subst ht
    exact accepts_readBlock len ctx
  · rw [readRun_of_ne ht]
    refine (accepts_readEach hitem len ctx len).mono ?_
    rintro xs _ ⟨bs, hbs, -, rfl⟩
    exact Items.wire_eq_ok.mpr ⟨fun h => absurd h ht, bs, hbs, rfl⟩

/-! ### Keys in ascending order -/

/-- An item with the bytes that were taken for it. -/
def withBytes (item : Decode (Value t)) : Decode (Value t × Bytes) := fun input =>
  (item input).map fun r => ((r.1, input.take (input.length - r.2.length)), r.2)

/-- Holds a key and its bytes against the bytes of the key before. -/
def inOrder (index : Nat) (previous : Option Bytes) (r : Value t × Bytes) : Decode (Value t × Bytes) :=
  match previous with
  | none => pure r
  | some earlier => if earlier < r.2 then pure r else throw (.nonCanonicalMap index)

theorem readKey_eq (item : Decode (Value t)) (index : Nat) (previous : Option Bytes) :
    readKey item index previous = withBytes item >>= inOrder index previous := by
  funext input
  rw [readKey, bind_apply, bind_apply, withBytes]
  show item input >>= _ = _
  cases item input <;> rfl

theorem withBytes_of_ok {x : Value t} {taken rest : Bytes} (h : item (taken ++ rest) = .ok (x, rest)) :
    withBytes item (taken ++ rest) = .ok ((x, taken), rest) := by
  have htaken : (taken ++ rest).take ((taken ++ rest).length - rest.length) = taken := by simp
  rw [withBytes, h, Except.map, htaken]

theorem inOrder_apply (index : Nat) (previous : Option Bytes) (r : Value t × Bytes) (rest : Bytes) :
    inOrder index previous r rest =
      if ∀ earlier ∈ previous, earlier < r.2 then .ok (r, rest) else .error (.nonCanonicalMap index) := by
  cases previous with
  | none =>
      rw [if_pos (by simp)]
      rfl
  | some earlier =>
      simp only [inOrder, Option.mem_some_iff, forall_eq']
      split <;> rfl

theorem readKey_of_ok {x : Value t} {taken rest : Bytes} (h : item (taken ++ rest) = .ok (x, rest)) (index : Nat)
    (previous : Option Bytes) :
    readKey item index previous (taken ++ rest) =
      if ∀ earlier ∈ previous, earlier < taken then .ok ((x, taken), rest)
      else .error (.nonCanonicalMap index) := by
  rw [readKey_eq, bind_apply, withBytes_of_ok h]
  exact inOrder_apply index previous (x, taken) rest

theorem readKey_of_error {input : Bytes} {e : CodecError} (h : item input = .error e) (index : Nat)
    (previous : Option Bytes) : readKey item index previous input = .error e := by
  rw [readKey_eq, bind_apply, withBytes, h]
  rfl

theorem accepts_readKey (hitem : item.Accepts Q) (index : Nat) (previous : Option Bytes) :
    (readKey item index previous).Accepts fun r taken =>
      r.2 = taken ∧ Q r.1 taken ∧ ∀ earlier ∈ previous, earlier < taken := by
  intro input r rest h
  cases hrun : item input with
  | error e => exact nomatch (readKey_of_error hrun index previous).symm.trans h
  | ok p =>
      obtain ⟨x, rest'⟩ := p
      obtain ⟨taken, rfl, hx⟩ := hitem _ _ _ hrun
      rw [readKey_of_ok hrun] at h
      split at h
      · next hlt =>
          cases h
          exact ⟨taken, rfl, rfl, hx, hlt⟩
      · cases h

theorem accepts_readSet (hitem : item.Accepts Q) : (len index : Nat) → (previous : Option Bytes) →
    (readSet item len index previous).Accepts fun xs taken =>
      ∃ bs, List.Forall₂ Q xs.toList bs ∧ AscendingFrom previous bs ∧ taken = bs.flatten
  | 0, _, previous => .pure ⟨[], .nil, ascendingFrom_nil previous, rfl⟩
  | len + 1, index, previous => by
      refine (accepts_readKey hitem index previous).bind ?_
      rintro ⟨x, b⟩ _ ⟨rfl, hx, hlt⟩
      refine .map ((accepts_readSet hitem len (index + 1) (some b)).mono ?_)
      rintro xs _ ⟨bs, hbs, hascending, rfl⟩
      exact ⟨b :: bs, .cons hx hbs, ascendingFrom_cons.mpr ⟨hlt, hascending⟩, rfl⟩

theorem accepts_readEntries {v : Ty} {value : Decode (Value v)} {R : Value v → Bytes → Prop}
    (hkey : item.Accepts Q) (hvalue : value.Accepts R) : (len index : Nat) → (previous : Option Bytes) →
      (readEntries item value len index previous).Accepts fun es taken =>
        ∃ ps : List (Bytes × Bytes), List.Forall₂ (fun e p => Q e.1 p.1 ∧ R e.2 p.2) es.toList ps ∧
          AscendingFrom previous (ps.map (·.1)) ∧ ps.length = len ∧ taken = ps.flatMap fun p => p.1 ++ p.2
  | 0, _, previous => .pure ⟨[], .nil, ascendingFrom_nil previous, rfl, rfl⟩
  | len + 1, index, previous => by
      refine (accepts_readKey hkey index previous).bind ?_
      rintro ⟨x, b⟩ _ ⟨rfl, hx, hlt⟩
      refine hvalue.bind fun y c hy => .map ((accepts_readEntries hkey hvalue len (index + 1) (some b)).mono ?_)
      rintro es _ ⟨ps, hps, hascending, rfl, rfl⟩
      refine ⟨(b, c) :: ps, .cons ⟨hx, hy⟩ hps, ascendingFrom_cons.mpr ⟨hlt, hascending⟩, rfl, ?_⟩
      rw [List.flatMap_cons, List.append_assoc]

/-! ### Reading back what was written -/

theorem Judges.and_wire {b : Bytes} {p : Prop} {Q : Value t → Prop} (h : item.Judges b p Q)
    (hitem : item.Canonical ctx) : item.Judges b p fun x => Q x ∧ x.wire ctx = .ok b := by
  refine ⟨fun hp => ?_, h.2⟩
  obtain ⟨x, hread, hQ⟩ := h.1 hp
  obtain ⟨taken, heq, hx⟩ := hitem _ _ _ (hread [])
  rw [List.append_left_inj] at heq
  exact ⟨x, hread, hQ, heq ▸ hx⟩

theorem Judges.weighed {b : Bytes} {p : Prop} {Q : Value t → Prop} (h : item.Judges b p Q) (count : Nat) :
    (weighed item count ctx).Judges b (p ∧ (b = [] → count ≤ ctx.limits.maxBytesLen)) Q := by
  constructor
  · intro h
    obtain ⟨hp, hcount⟩ := h
    obtain ⟨x, hread, hQ⟩ := h.1 hp
    refine ⟨x, fun rest => ?_, hQ⟩
    rw [weighed_of_ok (hread rest)]
    split
    · next hb =>
        rw [checkLength_of_le (hcount hb)]
        rfl
    · rfl
  · intro hnot rest
    by_cases hp : p
    · obtain ⟨x, hread, -⟩ := h.1 hp
      have hexceeds : b = [] ∧ ctx.limits.maxBytesLen < count := by
        by_contra hfits
        exact hnot ⟨hp, fun hb => Nat.not_lt.mp fun hlt => hfits ⟨hb, hlt⟩⟩
      rw [weighed_of_ok (hread rest), if_pos hexceeds.1, checkLength_of_lt hexceeds.2]
      exact ⟨_, rfl⟩
    · obtain ⟨e, he⟩ := h.2 hp rest
      exact ⟨e, by rw [Decode.weighed, he]; rfl⟩

theorem judges_readEach {xs : List (Value t)} {bs : List Bytes} {P : Value t → Prop} {R : Value t → Value t → Prop}
    (hbs : Wires ctx xs bs) (hitem : ∀ x ∈ xs, ∀ b, x.wire ctx = .ok b → item.Judges b (P x) (R x)) (count : Nat)
    (ctx' : Context) : {n : Nat} → xs.length = n →
      (readEach item count ctx' n).Judges bs.flatten
        ((∀ x ∈ xs, P x) ∧ ([] ∈ bs → count ≤ ctx'.limits.maxBytesLen)) fun ys => List.Forall₂ R xs ys.toList := by
  induction hbs with
  | nil =>
      rintro _ rfl
      exact (Judges.of_reads (.pure _) .nil).congr (by simp)
  | @cons x b xs bs hx _ ih =>
      rintro _ rfl
      obtain ⟨hhead, htail⟩ := List.forall_mem_cons.mp hitem
      rw [List.length_cons, readEach_succ, List.flatten_cons]
      refine Judges.congr (Judges.bind ((hhead b hx).weighed count) fun y hy =>
        Judges.map ((ih htail rfl).imp fun _ ys hys => .cons hy hys)) ?_
      rw [List.forall_mem_cons, List.mem_cons]
      grind

theorem Judges.readKey {b : Bytes} {p : Prop} {Q : Value t → Prop} (h : item.Judges b p Q) (index : Nat)
    (previous : Option Bytes) :
    (readKey item index previous).Judges b (p ∧ ∀ earlier ∈ previous, earlier < b) fun r => Q r.1 ∧ r.2 = b := by
  constructor
  · intro h
    obtain ⟨hp, hlt⟩ := h
    obtain ⟨x, hread, hQ⟩ := h.1 hp
    refine ⟨(x, b), fun rest => ?_, hQ, rfl⟩
    rw [readKey_of_ok (hread rest), if_pos hlt]
  · intro hnot rest
    by_cases hp : p
    · obtain ⟨x, hread, -⟩ := h.1 hp
      rw [readKey_of_ok (hread rest), if_neg fun hlt => hnot ⟨hp, hlt⟩]
      exact ⟨_, rfl⟩
    · obtain ⟨e, he⟩ := h.2 hp rest
      exact ⟨e, readKey_of_error he index previous⟩

theorem judges_readSet {xs : List (Value t)} {bs : List Bytes} {P : Value t → Prop} {R : Value t → Value t → Prop}
    (hbs : Wires ctx xs bs) (hitem : ∀ x ∈ xs, ∀ b, x.wire ctx = .ok b → item.Judges b (P x) (R x)) :
    {n : Nat} → xs.length = n → (index : Nat) → (previous : Option Bytes) →
      (readSet item n index previous).Judges bs.flatten ((∀ x ∈ xs, P x) ∧ AscendingFrom previous bs)
        fun ys => List.Forall₂ R xs ys.toList := by
  induction hbs with
  | nil =>
      rintro _ rfl index previous
      exact (Judges.of_reads (.pure _) .nil).congr (by simp [ascendingFrom_nil])
  | @cons x b xs bs hx _ ih =>
      rintro _ rfl index previous
      obtain ⟨hhead, htail⟩ := List.forall_mem_cons.mp hitem
      refine Judges.congr (Judges.bind ((hhead b hx).readKey index previous)
        (q := (∀ y ∈ xs, P y) ∧ AscendingFrom (some b) bs) ?_) ?_
      · rintro ⟨y, c⟩ ⟨hy, rfl⟩
        exact Judges.map ((ih htail rfl (index + 1) (some c)).imp fun _ ys hys => .cons hy hys)
      · rw [List.forall_mem_cons, ascendingFrom_cons]
        grind

theorem judges_readEntries {v : Ty} {value : Decode (Value v)} {es : List (Value t × Value v)}
    {ps : List (Bytes × Bytes)} {P : Value t → Prop} {Q : Value t → Value t → Prop} {R : Value v → Prop}
    {S : Value v → Value v → Prop} (hps : EntryWires ctx es ps)
    (hkey : ∀ e ∈ es, ∀ b, e.1.wire ctx = .ok b → item.Judges b (P e.1) (Q e.1))
    (hvalue : ∀ e ∈ es, ∀ b, e.2.wire ctx = .ok b → value.Judges b (R e.2) (S e.2)) :
    {n : Nat} → es.length = n → (index : Nat) → (previous : Option Bytes) →
      (readEntries item value n index previous).Judges (ps.flatMap fun p => p.1 ++ p.2)
        ((∀ e ∈ es, P e.1 ∧ R e.2) ∧ AscendingFrom previous (ps.map (·.1)))
        fun fs => List.Forall₂ (fun e f => Q e.1 f.1 ∧ S e.2 f.2) es fs.toList := by
  induction hps with
  | nil =>
      rintro _ rfl index previous
      exact (Judges.of_reads (.pure _) .nil).congr (by simp [ascendingFrom_nil])
  | @cons e p es ps he _ ih =>
      rintro _ rfl index previous
      obtain ⟨hkeyHead, hkeyTail⟩ := List.forall_mem_cons.mp hkey
      obtain ⟨hvalueHead, hvalueTail⟩ := List.forall_mem_cons.mp hvalue
      rw [List.flatMap_cons, List.append_assoc]
      refine Judges.congr (Judges.bind ((hkeyHead p.1 he.1).readKey index previous)
        (q := R e.2 ∧ (∀ f ∈ es, P f.1 ∧ R f.2) ∧ AscendingFrom (some p.1) (ps.map (·.1))) ?_) ?_
      · rintro ⟨x, _⟩ ⟨hx, rfl⟩
        exact Judges.bind (hvalueHead p.2 he.2) fun y hy => Judges.map
          ((ih hkeyTail hvalueTail rfl (index + 1) (some p.1)).imp fun _ fs hfs => .cons ⟨hx, hy⟩ hfs)
      · rw [List.forall_mem_cons, List.map_cons, ascendingFrom_cons]
        grind

end Decode
end CanonicalWire
