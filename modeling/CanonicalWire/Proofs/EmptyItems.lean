import CanonicalWire.Proofs.RoundTrip
import CanonicalWire.Proofs.SortedSequence

/-!
Items that take no bytes. Whether a value takes bytes is settled by its type and its context, both as it is written
and as it is read. So the ceiling on the number of items that take none is checked after every item of a run or after
none, and items that take bytes are never refused for their number.
-/

namespace CanonicalWire

namespace Decode

/-- The action takes no bytes. -/
def TakesNothing {α : Type} (d : Decode α) : Prop := ∀ input a rest, d input = .ok (a, rest) → rest = input

variable [Declarations] {t : Ty} {item : Decode (Value t)} {ctx : Context}

/-- Reads `len` items one by one and makes a check after each. -/
def readChecked (item : Decode (Value t)) (check : Except CodecError PUnit) : (len : Nat) → Decode (Items t len)
  | 0 => pure .nil
  | len + 1 => do
      let x ← item
      check
      let xs ← readChecked item check len
      return .cons x xs

/-- An item with a check after it. -/
def checked (item : Decode (Value t)) (check : Except CodecError PUnit) : Decode (Value t) := do
  let x ← item
  check
  return x

theorem readChecked_succ (item : Decode (Value t)) (check : Except CodecError PUnit) (len : Nat) :
    readChecked item check (len + 1) = checked item check >>= fun x =>
      readChecked item check len >>= fun xs => pure (.cons x xs) := by
  rw [readChecked, checked, bind_assoc]
  refine bind_congr fun x => ?_
  rw [bind_assoc]
  refine bind_congr fun _ => ?_
  rw [pure_bind]

theorem checked_ok (item : Decode (Value t)) : checked item (.ok ()) = item := bind_pure item

theorem readEach_eq_readChecked {count : Nat} {check : Except CodecError PUnit}
    (h : weighed item count ctx = checked item check) : (len : Nat) →
      readEach item count ctx len = readChecked item check len
  | 0 => rfl
  | len + 1 => by rw [readEach_succ, readChecked_succ, h, readEach_eq_readChecked h len]

theorem TakesNothing.weighed (h : item.TakesNothing) (count : Nat) (ctx : Context) :
    weighed item count ctx = checked item (checkLength count ctx) := by
  funext input
  rw [Decode.weighed, checked, bind_apply]
  cases hrun : item input with
  | error e => rfl
  | ok r =>
      have hrest : r.2.length = input.length := congrArg List.length (h input r.1 r.2 hrun)
      show (if r.2.length = input.length then _ else _) = _
      rw [if_pos hrest]
      show _ = (liftM (checkLength count ctx) >>= fun _ => pure r.1 : Decode (Value t)) r.2
      cases checkLength count ctx <;> rfl

theorem TakesBytes.weighed (h : item.TakesBytes) (count : Nat) (ctx : Context) :
    weighed item count ctx = checked item (.ok ()) := by
  funext input
  rw [checked_ok, Decode.weighed]
  cases hrun : item input with
  | error e => rfl
  | ok r =>
      have hlt := h.length_lt hrun
      exact if_neg hlt.ne

/-- A run without a check ends with an error of one of its items, after those before it have been read. -/
theorem readChecked_eq_error {len : Nat} {input : Bytes} {e : CodecError} :
    readChecked item (.ok ()) len input = .error e ↔
      ∃ xs middle, xs.length < len ∧ ReadsAll item xs input middle ∧ item middle = .error e := by
  induction len generalizing input with
  | zero =>
      constructor
      · exact nofun
      · rintro ⟨xs, middle, hlen, -⟩
        exact absurd hlen (Nat.not_lt_zero _)
  | succ len ih =>
      rw [readChecked_succ, checked_ok, bind_apply, bind_eq_error]
      constructor
      · rintro (hitem | ⟨⟨x, left⟩, hx, hrest⟩)
        · exact ⟨[], input, Nat.succ_pos len, rfl, hitem⟩
        · obtain ⟨xs, middle, hlen, hall, he⟩ := ih.mp (bind_pure_eq_error.mp hrest)
          exact ⟨x :: xs, middle, Nat.succ_lt_succ hlen, ⟨left, hx, hall⟩, he⟩
      · rintro ⟨_ | ⟨x, xs⟩, middle, hlen, hall, he⟩
        · cases hall
          exact .inl he
        · obtain ⟨left, hx, hall⟩ := hall
          have hrest := ih.mpr ⟨xs, middle, Nat.lt_of_succ_lt_succ hlen, hall, he⟩
          exact .inr ⟨(x, left), hx, bind_pure_eq_error.mpr hrest⟩

end Decode

/-! ### Types that take no bytes -/

section Widths

variable [Declarations] {t : Ty} {ctx : Context}

/-- Whether bytes are appended is settled by the type and the context. -/
theorem Value.appended_of_encode {x : Value t} {written r : Bytes} (h : x.encode ctx written = .ok ((), r)) :
    ∃ bs, r = written ++ bs ∧ (bs = [] ↔ t.Weightless ctx) := by
  obtain ⟨bs, hbs, rfl⟩ := (x.appends_encode ctx).apply_eq_ok.mp h
  exact ⟨bs, rfl, x.wire_nil_iff ctx bs hbs⟩

/-- Whether bytes are taken is settled by the type and the context. -/
theorem Ty.accepts_decode_nil_iff (t : Ty) (ctx : Context) :
    (t.decode ctx).Accepts fun _ taken => taken = [] ↔ t.Weightless ctx := by
  refine (t.sameCourse_decode ctx).accepts (Q := fun taken => taken = [] ↔ t.Weightless ctx) ?_
  exact (@Ty.canonical_decode .derived Declarations.lawfulKeys_derived t ctx).mono fun x taken hwire =>
    x.wire_nil_iff ctx taken hwire

theorem Ty.takesNothing_decode (h : t.Weightless ctx) : (t.decode ctx).TakesNothing := by
  intro input x rest hrun
  obtain ⟨taken, rfl, hnil⟩ := t.accepts_decode_nil_iff ctx input x rest hrun
  rw [hnil.mpr h]
  rfl

theorem Ty.takesBytes_decode (h : ¬t.Weightless ctx) : (t.decode ctx).TakesBytes :=
  (t.accepts_decode_nil_iff ctx).mono fun _ _ hnil => mt hnil.mp h

end Widths

/-- Of the values of one type in one context, either none takes bytes or all do, as they are written and as they are
read. In the first case the ceiling is checked after every item of a run. In the second it is checked after none, and
the run fails only where an item fails. -/
theorem Ty.width_uniform [Declarations] (t : Ty) (ctx : Context) :
    (t.Weightless ctx ∧
      (∀ (x : Value t) written r, x.encode ctx written = .ok ((), r) → r = written) ∧
      (∀ input x rest, t.decode ctx input = .ok (x, rest) → rest = input) ∧
      ∀ count len, Decode.readEach (t.decode ctx) count ctx len =
        Decode.readChecked (t.decode ctx) (checkLength count ctx) len) ∨
    (¬t.Weightless ctx ∧
      (∀ (x : Value t) written r, x.encode ctx written = .ok ((), r) → ∃ bs, bs ≠ [] ∧ r = written ++ bs) ∧
      (∀ input x rest, t.decode ctx input = .ok (x, rest) → ∃ taken, taken ≠ [] ∧ input = taken ++ rest) ∧
      (∀ count len, Decode.readEach (t.decode ctx) count ctx len = Decode.readChecked (t.decode ctx) (.ok ()) len) ∧
      ∀ count len input e, Decode.readEach (t.decode ctx) count ctx len input = .error e ↔
        ∃ xs middle, xs.length < len ∧ (t.decode ctx).ReadsAll xs input middle ∧ t.decode ctx middle = .error e) := by
  by_cases h : t.Weightless ctx
  · have hitem := t.takesNothing_decode h
    refine .inl ⟨h, fun x written r hrun => ?_, hitem,
      fun count => Decode.readEach_eq_readChecked (hitem.weighed count ctx)⟩
    obtain ⟨bs, rfl, hnil⟩ := Value.appended_of_encode hrun
    rw [hnil.mpr h, List.append_nil]
  · have hloop (count : Nat) := Decode.readEach_eq_readChecked ((t.takesBytes_decode h).weighed count ctx)
    refine .inr ⟨h, fun x written r hrun => ?_, fun input x rest hrun => ?_, hloop, fun count len input e => ?_⟩
    · obtain ⟨bs, rfl, hnil⟩ := Value.appended_of_encode hrun
      exact ⟨bs, mt hnil.mp h, rfl⟩
    · obtain ⟨taken, rfl, hne⟩ := t.takesBytes_decode h input x rest hrun
      exact ⟨taken, hne, rfl⟩
    · rw [hloop]
      exact Decode.readChecked_eq_error

section Units

/-- Under a ceiling of three, four units are refused and four words are read. -/
theorem Ty.width_uniform_units :
    Decode.readEach (Ty.unit.decode threeBytes) 4 threeBytes 4 [7] = .error (.oversizedLength 4 3) ∧
      Decode.readEach (Ty.u16.decode threeBytes) 4 threeBytes 4 [1, 0, 2, 0, 3, 0, 4, 0, 7] =
        .ok (.cons (word 1) (.cons (word 2) (.cons (word 3) (.cons (word 4) .nil))), [7]) := by
  constructor
  · rcases width_uniform .unit threeBytes with ⟨-, -, -, hloop⟩ | ⟨hweight, -⟩
    · rw [hloop, Ty.decode_eq]
      rfl
    · exact absurd trivial hweight
  · rcases width_uniform .u16 threeBytes with ⟨hweightless, -⟩ | ⟨-, -, -, hloop, -⟩
    · exact hweightless.elim
    · rw [hloop, Ty.decode_eq]
      rfl

end Units

end CanonicalWire
