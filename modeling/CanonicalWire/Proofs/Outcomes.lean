import Mathlib.Data.List.Forall2
import Mathlib.Data.List.Induction

/-!
When a computation that can fail succeeds: each of its steps does, and what every step keeps holds in the end.
When it fails, it fails in one of its steps.
-/

namespace CanonicalWire

variable {ε α β γ : Type}

theorem bind_eq_ok {e : Except ε α} {f : α → Except ε β} {b : β} :
    (e >>= f) = .ok b ↔ ∃ a, e = .ok a ∧ f a = .ok b := by
  cases e <;> simp [bind, Except.bind]

theorem bind_eq_error {x : Except ε α} {f : α → Except ε β} {e : ε} :
    (x >>= f) = .error e ↔ x = .error e ∨ ∃ a, x = .ok a ∧ f a = .error e := by
  cases x <;> simp [bind, Except.bind]

theorem map_eq_ok {e : Except ε α} {f : α → β} {b : β} : e.map f = .ok b ↔ ∃ a, e = .ok a ∧ f a = b := by
  cases e <;> simp [Except.map]

theorem map_eq_error {x : Except ε α} {g : α → β} {e : ε} : x.map g = .error e ↔ x = .error e := by
  cases x <;> simp [Except.map]

theorem exists_map_eq_ok {x : Except ε α} {g : α → β} : (∃ b, x.map g = .ok b) ↔ ∃ a, x = .ok a := by
  cases x <;> simp [Except.map]

/-- What is behind a check is reached if the check is passed. -/
theorem throw_if_eq_ok {c : Bool} {e : ε} {f : Unit → Except ε α} {a : α} :
    (if c then throw e >>= f else f ()) = .ok a ↔ c = false ∧ f () = .ok a := by
  cases c with
  | false => exact ⟨fun h => ⟨rfl, h⟩, And.right⟩
  | true => exact ⟨nofun, nofun⟩

theorem throw_if_eq_error {c : Bool} {e e' : ε} {f : Unit → Except ε α} :
    (if c then throw e >>= f else f ()) = .error e' ↔ (c = true ∧ e = e') ∨ (c = false ∧ f () = .error e') := by
  cases c with
  | false => exact ⟨fun h => .inr ⟨rfl, h⟩, fun h => h.elim nofun And.right⟩
  | true => exact ⟨fun h => .inl ⟨rfl, Except.error.inj h⟩, fun h => h.elim (congrArg Except.error ·.2) nofun⟩

/-! ### Lists of parts -/

theorem mapM_eq_ok {f : α → Except ε β} {xs : List α} {ys : List β} :
    xs.mapM f = .ok ys ↔ List.Forall₂ (fun x y => f x = .ok y) xs ys := by
  induction xs generalizing ys with
  | nil => simp [pure, Except.pure, eq_comm]
  | cons x xs ih =>
      rw [List.mapM_cons, bind_eq_ok, List.forall₂_cons_left_iff]
      apply exists_congr
      intro y
      rw [bind_eq_ok]
      constructor
      · rintro ⟨hy, zs, hzs, ⟨⟩⟩
        exact ⟨zs, hy, ih.mp hzs, rfl⟩
      · rintro ⟨zs, hy, hzs, rfl⟩
        exact ⟨hy, zs, ih.mpr hzs, rfl⟩

/-- What is made of the parts and their results is made of them after all parts have passed. -/
theorem mapM_map {f : α → Except ε β} (g : α → β → γ) (xs : List α) :
    (xs.mapM fun x => (f x).map (g x)) = (xs.mapM f).map fun ys => List.zipWith g xs ys := by
  induction xs with
  | nil => rfl
  | cons x xs ih =>
      rw [List.mapM_cons, List.mapM_cons, ih]
      cases f x with
      | error e => rfl
      | ok y => cases xs.mapM f <;> rfl

theorem exists_forall₂ {r : α → β → Prop} {xs : List α} :
    (∃ ys, List.Forall₂ r xs ys) ↔ ∀ x ∈ xs, ∃ y, r x y := by
  induction xs with
  | nil => exact ⟨fun _ _ hx => absurd hx List.not_mem_nil, fun _ => ⟨[], .nil⟩⟩
  | cons x xs ih =>
      rw [List.forall_mem_cons, ← ih]
      constructor
      · rintro ⟨_, h⟩
        obtain ⟨y, ys, hy, hys, -⟩ := List.forall₂_cons_left_iff.mp h
        exact ⟨⟨y, hy⟩, ys, hys⟩
      · rintro ⟨⟨y, hy⟩, ys, hys⟩
        exact ⟨y :: ys, .cons hy hys⟩

theorem exists_mem_iff {f : α → Except ε β} {xs : List α} {ys : List β}
    (h : List.Forall₂ (fun x y => f x = .ok y) xs ys) {P : β → Prop} :
    (∃ y ∈ ys, P y) ↔ ∃ x ∈ xs, ∃ y, f x = .ok y ∧ P y := by
  induction h with
  | nil => simp
  | cons hy _ ih => simp [ih, hy]

/-! ### Folds -/

/-- A fold fails in the step at one of the items, after the steps at the items before it have succeeded. -/
theorem foldlM_eq_error {step : β → α → Except ε β} {b : β} {xs : List α} {e : ε} :
    xs.foldlM step b = .error e ↔ ∃ before x after c, xs = before ++ x :: after ∧
      before.foldlM step b = .ok c ∧ step c x = .error e := by
  constructor
  · intro h
    induction xs generalizing b with
    | nil => cases h
    | cons x xs ih =>
        rw [List.foldlM_cons] at h
        rcases bind_eq_error.mp h with hx | ⟨c, hx, hxs⟩
        · exact ⟨[], x, xs, b, rfl, rfl, hx⟩
        · obtain ⟨before, y, after, d, rfl, hbefore, hy⟩ := ih hxs
          refine ⟨x :: before, y, after, d, rfl, ?_, hy⟩
          rw [List.foldlM_cons]
          exact bind_eq_ok.mpr ⟨c, hx, hbefore⟩
  · rintro ⟨before, x, after, c, rfl, hbefore, hx⟩
    rw [List.foldlM_append]
    refine bind_eq_error.mpr (.inr ⟨c, hbefore, ?_⟩)
    rw [List.foldlM_cons]
    exact bind_eq_error.mpr (.inl hx)

/-- A step that keeps what holds of the items seen so far makes it hold of all items in the end. -/
theorem foldlM_invariant {step : β → α → Except ε β} {P : List α → β → Prop} {b : β}
    (hstep : ∀ {seen c x c'}, P seen c → step c x = .ok c' → P (seen ++ [x]) c') (hstart : P [] b)
    {xs : List α} {b' : β} (h : xs.foldlM step b = .ok b') : P xs b' := by
  -- From the end, so that the induction hypothesis speaks of what has been seen.
  induction xs using List.reverseRecOn generalizing b' with
  | nil =>
      obtain rfl := Except.ok.inj h
      exact hstart
  | append_singleton xs x ih =>
      rw [List.foldlM_append] at h
      obtain ⟨c, hc, hx⟩ := bind_eq_ok.mp h
      simp only [List.foldlM_cons, List.foldlM_nil, bind_pure] at hx
      exact hstep (ih hc) hx

end CanonicalWire
