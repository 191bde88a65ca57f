import CanonicalWire.Proofs.Bounds
import CanonicalWire.Proofs.Failures

/-!
How deep decoded values are. A value of a type that contains itself is read from bytes of its own, of which at least
one belongs to none of the values inside it, so values are not nested deeper than the bytes that they were read from.
-/

namespace CanonicalWire

section Values

variable [Declarations]

mutual
/-- How many values of types that contain themselves are nested one inside the other. -/
def Value.depth : {t : Ty} → Value t → Nat
  | .scalar _, .scalar _ => 0
  | .option _, .absent => 0
  | .option _, .present x => x.depth
  | .pointer _ _, .pointer x => x.depth
  | .sequence _ _, .sequence xs => xs.depth
  | .deque _, .deque front back => max front.depth back.depth
  | .array _ _, .array xs => xs.depth
  | .map _ _ _, .map es => es.depth
  | .set _ _, .set xs => xs.depth
  | .record _ _, .record xs => xs.depth
  | .union _ _, .union c => c.depth
  | .recursive _, .recursive x => x.depth + 1
def Items.depth : {t : Ty} → {n : Nat} → Items t n → Nat
  | _, _, .nil => 0
  | _, _, .cons x xs => max x.depth xs.depth
def Entries.depth : {k v : Ty} → Entries k v → Nat
  | _, _, .nil => 0
  | _, _, .cons key value rest => max (max key.depth value.depth) rest.depth
def Record.depth : {fs : Fields} → Record fs → Nat
  | .nil, .nil => 0
  | .cons _ _ _ _, .cons x xs => max x.depth xs.depth
  | .cons _ _ _ _, .omitted _ xs => xs.depth
def Choice.depth : {cs : Cases} → Choice cs → Nat
  | .cons _ _ _, .here x => x.depth
  | .cons _ _ _, .there c => c.depth
end

variable {m : Nat}

theorem Items.depth_le_iff : {t : Ty} → {n : Nat} → (xs : Items t n) →
    (xs.depth ≤ m ↔ ∀ x ∈ xs.toList, x.depth ≤ m)
  | _, _, .nil => by simp [Items.depth, Items.toList]
  | _, _, .cons x xs => by rw [Items.depth, Items.toList, List.forall_mem_cons, Nat.max_le, xs.depth_le_iff]

theorem Entries.depth_le_iff : {k v : Ty} → (es : Entries k v) →
    (es.depth ≤ m ↔ ∀ e ∈ es.toList, e.1.depth ≤ m ∧ e.2.depth ≤ m)
  | _, _, .nil => by simp [Entries.depth, Entries.toList]
  | _, _, .cons key value rest => by
      rw [Entries.depth, Entries.toList, List.forall_mem_cons, Nat.max_le, Nat.max_le, rest.depth_le_iff]

/-! ### Defaults -/

/-- No default of a declared type is nested deeper than `m`. -/
def DefaultsWithin (m : Nat) : Prop := ∀ t (x : Value t), Declarations.default? t = some x → x.depth ≤ m

theorem Items.toList_replicate {t : Ty} (x : Value t) : (n : Nat) → (replicate x n).toList = List.replicate n x
  | 0 => rfl
  | n + 1 => congrArg (x :: ·) (Items.toList_replicate x n)

theorem Fields.depth_default : (fs : Fields) → {xs : Record fs} →
    (∀ t ∈ fs.types, ∀ x : Value t, t.default? = some x → x.depth ≤ m) → fs.default? = some xs → xs.depth ≤ m
  | .nil, _, _, h => by
      cases h
      exact Nat.zero_le m
  | .cons _ _ t rest, xs, ih, h => by
      obtain ⟨ht, hrest⟩ := List.forall_mem_cons.mp ih
      rw [Fields.default?] at h
      split at h
      · next x ys hx hys =>
          cases h
          exact Nat.max_le.mpr ⟨ht x hx, rest.depth_default hrest hys⟩
      · cases h

/-- A default is put together from defaults of declared types. -/
theorem Ty.depth_default (hdefaults : DefaultsWithin m) (t : Ty) (x : Value t) (h : t.default? = some x) :
    x.depth ≤ m := by
  induction t with
  | scalar s | option t | sequence k t | map l k v | set l t =>
      cases h
      exact Nat.zero_le m
  | deque t =>
      cases h
      exact Nat.max_le.mpr ⟨Nat.zero_le m, Nat.zero_le m⟩
  | pointer p t ih =>
      obtain ⟨y, hy, rfl⟩ := Option.map_eq_some_iff.mp h
      exact ih y hy
  | array t n ih =>
      obtain ⟨y, hy, rfl⟩ := Option.map_eq_some_iff.mp h
      refine (Items.depth_le_iff _).mpr fun z hz => ?_
      rw [Items.toList_replicate] at hz
      exact List.eq_of_mem_replicate hz ▸ ih y hy
  | record k fs ih =>
      cases k with
      | tuple =>
          obtain ⟨xs, hxs, rfl⟩ := Option.map_eq_some_iff.mp h
          exact fs.depth_default ih hxs
      | declared name shape => exact hdefaults _ x h
      | assembled => cases h
  | union | recursive => exact hdefaults _ x h

theorem RecordKind.depth_restore (hdefaults : DefaultsWithin m) (k : RecordKind) {name : String}
    {declared : Declaration} {t : Ty} {fs : Fields} (skipped : declared.skips = true) (xs : Record fs) :
    (k.restore skipped xs : Record (.cons name declared t fs)).depth ≤ max xs.depth m := by
  unfold restore
  split
  · next x hdefault =>
      exact Nat.max_le.mpr ⟨(t.depth_default hdefaults x hdefault).trans (le_max_right _ _), le_max_left _ _⟩
  · exact le_max_left _ _

/-! ### Decoded values -/

namespace Decode

/-- What is read is not nested deeper than the bytes taken for it, or than defaults are on top of that. -/
def Shallow {t : Ty} (d : Decode (Value t)) (m : Nat) : Prop := d.Accepts fun x taken => x.depth ≤ taken.length + m

/-- What is read is not nested as deep as that: a byte is taken that belongs to no value inside. -/
def Shallower {t : Ty} (d : Decode (Value t)) (m : Nat) : Prop :=
  d.Accepts fun x taken => max x.depth m < taken.length + m

variable {t : Ty} {item : Decode (Value t)} {ctx : Context}

theorem Shallow.after {α : Type} {d : Decode α} {f : α → Decode (Value t)} {P : α → Bytes → Prop}
    (hd : d.Accepts P) (hf : ∀ a, (f a).Shallow m) : Shallow (d >>= f) m :=
  hd.bind fun a u _ => (hf a).mono fun x taken hx => by
    rw [List.length_append]
    omega

theorem Shallower.shallow {d : Decode (Value t)} (h : d.Shallower m) : d.Shallow m :=
  h.mono fun _ _ hlt => ((le_max_left _ _).trans_lt hlt).le

theorem Shallower.after {α : Type} {d : Decode α} {f : α → Decode (Value t)} (hd : d.TakesBytes)
    (hf : ∀ a, (f a).Shallow m) : Shallower (d >>= f) m :=
  hd.bind fun a u hu => (hf a).mono fun x taken hx => by
    have hpos := List.length_pos_of_ne_nil hu
    rw [List.length_append]
    omega

/-- Where the number of items is not fixed, it takes bytes of its own. -/
theorem Shallower.counted {f : Nat → Decode (Value t)} (hcounted : ∀ len, (f len).Shallow m)
    (hfixed : ∀ len, ctx.fixedLen = some len → (f len).Shallower m) : Shallower (readCount ctx >>= f) m := by
  rw [readCount]
  split
  · next len hlen => exact hfixed len hlen
  · exact .after takesBytes_readLen hcounted

theorem depth_le_of_forall₂ {xs : List (Value t)} {bs : List Bytes}
    (h : List.Forall₂ (fun x b => x.depth ≤ b.length + m) xs bs) : ∀ x ∈ xs, x.depth ≤ bs.flatten.length + m := by
  intro x hx
  obtain ⟨b, hb, hle⟩ := forall₂_exists_of_mem h hx
  exact hle.trans (Nat.add_le_add_right (List.sublist_flatten_of_mem hb).length_le m)

theorem shallow_readBlock (len : Nat) (ctx : Context) :
    (readBlock len ctx).Accepts fun xs taken => xs.depth = 0 ∧ taken.length = len := by
  refine .lift_bind fun _ _ => .map ((accepts_take len).mono ?_)
  rintro block _ rfl
  refine ⟨Nat.le_zero.mp ((Items.depth_le_iff _).mpr ?_), block.length_eq⟩
  rintro ⟨x⟩ -
  exact Nat.le_refl 0

theorem shallow_readRun (hitem : item.Shallow m) (len : Nat) (ctx : Context) :
    (readRun t item len ctx).Accepts fun xs taken => xs.depth ≤ taken.length + m := by
  by_cases ht : t = .byte
  · subst ht
    exact (shallow_readBlock len ctx).mono fun xs taken h => by omega
  · rw [readRun_of_ne ht]
    refine (accepts_readEach hitem len ctx len).mono ?_
    rintro xs _ ⟨bs, hbs, -, rfl⟩
    exact xs.depth_le_iff.mpr (depth_le_of_forall₂ hbs)

theorem shallower_readRun (hitem : item.Shallower m) {len : Nat} (hlen : 0 < len) (ctx : Context) :
    (readRun t item len ctx).Accepts fun xs taken => max xs.depth m < taken.length + m := by
  by_cases ht : t = .byte
  · subst ht
    exact (shallow_readBlock len ctx).mono fun xs taken h => by omega
  · rw [readRun_of_ne ht]
    refine (accepts_readEach hitem len ctx len).mono ?_
    rintro xs _ ⟨bs, hbs, -, rfl⟩
    cases xs with
    | nil => exact absurd hlen (Nat.lt_irrefl 0)
    | cons x xs =>
        obtain ⟨b, rest, hx, hxs, rfl⟩ := List.forall₂_cons_left_iff.mp hbs
        have hle : xs.depth ≤ rest.flatten.length + m :=
          xs.depth_le_iff.mpr (depth_le_of_forall₂ (hxs.imp fun _ _ h => (le_max_left _ _).trans h.le))
        rw [Items.depth, List.flatten_cons, List.length_append]
        omega

theorem shallower_readMap {v : Ty} {value : Decode (Value v)} (hitem : item.Shallow m) (hvalue : value.Shallow m)
    (l : Listing) : (readMap item value).Accepts fun es taken => max (es.list l).depth m < taken.length + m := by
  refine length_readLen.bind fun len u hu => ?_
  refine (accepts_readEntries hitem hvalue len 0 none).mono ?_
  rintro es _ ⟨ps, hps, -, -, rfl⟩
  have hle : (es.list l).depth ≤ (ps.flatMap fun p => p.1 ++ p.2).length + m := by
    refine (es.list l).depth_le_iff.mpr
      (Entries.covered_list (P := (·.depth ≤ _)) (Q := (·.depth ≤ _)) (fun e he => ?_) l).2
    -- each key and each value has a piece of the input of its own
    obtain ⟨p, hp, hkey, hval⟩ := forall₂_exists_of_mem hps he
    have hpiece := length_le_flatMap_of_mem (f := fun p : Bytes × Bytes => p.1 ++ p.2) hp
    rw [List.length_append] at hpiece
    exact ⟨show _ ≤ _ by omega, show _ ≤ _ by omega⟩
  rw [List.length_append]
  omega

theorem shallower_readItems (hitem : item.Shallow m) (l : Listing) :
    (readItems item).Accepts fun xs taken => max (Value.setOf xs l).depth m < taken.length + m := by
  refine length_readLen.bind fun len u hu => .map ?_
  refine (accepts_readSet hitem len 0 none).mono ?_
  rintro xs _ ⟨bs, hbs, -, rfl⟩
  have hle : (Value.setOf xs.toList l).depth ≤ bs.flatten.length + m := by
    refine (Items.depth_le_iff _).mpr ?_
    rw [Items.toList_ofList]
    exact (Items.covered_list (depth_le_of_forall₂ hbs) l).2
  rw [List.length_append]
  omega

end Decode

section Types

variable {self : DecodeRecursive}

theorem Cases.shallow_decodeWith (union : String) (payload : Ty) : (cs : Cases) → (ctx : Context) →
    (∀ t ∈ cs.types, ∀ ctx, (t.decodeWith self ctx).Shallow m) →
      (cs.decodeWith self union payload ctx).Accepts fun c taken => c.depth ≤ taken.length + m
  | .nil, _, _ => .throw _
  | .cons _ t rest, ctx, h => by
      obtain ⟨ht, hrest⟩ := List.forall_mem_cons.mp h
      rw [Cases.decodeWith]
      split
      · exact .map (ht ctx)
      · exact .map (rest.shallow_decodeWith union payload ctx hrest)

variable (hdefaults : DefaultsWithin m)
include hdefaults

theorem Fields.shallow_decodeWith (k : RecordKind) : (fs : Fields) → (ctx : Context) →
    (∀ t ∈ fs.types, ∀ ctx, (t.decodeWith self ctx).Shallow m) →
      (fs.decodeWith self k ctx).Accepts fun xs taken => xs.depth ≤ taken.length + m
  | .nil, _, _ => .pure (Nat.zero_le _)
  | .cons _ declared t rest, ctx, h => by
      obtain ⟨ht, hrest⟩ := List.forall_mem_cons.mp h
      have hxs := rest.shallow_decodeWith k ctx hrest
      rw [Fields.decodeWith]
      split
      · next skipped => exact .map (hxs.mono fun xs taken hle => (k.depth_restore hdefaults skipped xs).trans
          (max_le hle (Nat.le_add_left m _)))
      · refine .lift_bind fun fieldCtx _ => (ht fieldCtx).bind fun x b hx => .map (hxs.mono fun xs more hle => ?_)
        rw [Record.depth, List.length_append]
        omega

theorem Fields.shallower_decodeWith (k : RecordKind) : (fs : Fields) → (ctx : Context) →
    (∀ t ∈ fs.types, ∀ ctx, (t.decodeWith self ctx).Shallow m) →
    (∀ t ∈ fs.types, ∀ ctx : Context, t.guarded ctx.optional ctx.fixedLen = true →
      (t.decodeWith self ctx).Shallower m) →
      fs.guarded = true → (fs.decodeWith self k ctx).Accepts fun xs taken => max xs.depth m < taken.length + m
  | .cons _ (.faulty _) _ _, _, _, _, _ => .lift_bind fun _ h => nomatch h
  | .cons _ (.valid d) t rest, ctx, h, ih, hguarded => by
      obtain ⟨ht, hrest⟩ := List.forall_mem_cons.mp h
      obtain ⟨iht, ihrest⟩ := List.forall_mem_cons.mp ih
      rw [guarded] at hguarded
      rw [Fields.decodeWith]
      split at hguarded
      · next hskip =>
          have hskips : (Declaration.valid d).skips = true := hskip
          rw [dif_pos hskips]
          refine .map ((rest.shallower_decodeWith k ctx hrest ihrest hguarded).mono fun xs taken hlt => ?_)
          exact (max_le (k.depth_restore hdefaults hskips xs) (le_max_right _ _)).trans_lt hlt
      · next hskip =>
          have hskips : ¬(Declaration.valid d).skips = true := hskip
          rw [dif_neg hskips]
          refine .lift_bind fun fieldCtx henter => ?_
          obtain ⟨hoptional, hfixed⟩ := Declaration.directives_enter henter
          simp only [Bool.or_eq_true, Bool.and_eq_true] at hguarded
          rcases hguarded with hfield | ⟨-, hfields⟩
          · refine (iht fieldCtx (by rwa [hoptional, hfixed])).bind fun x b hx => .map ?_
            refine (rest.shallow_decodeWith hdefaults k ctx hrest).mono fun xs more hle => ?_
            rw [Record.depth, List.length_append]
            omega
          · refine (ht fieldCtx).bind fun x b hx => .map ?_
            refine (rest.shallower_decodeWith k ctx hrest ihrest hfields).mono fun xs more hlt => ?_
            rw [Record.depth, List.length_append]
            omega

variable (hself : ∀ r ctx, (self r ctx).Accepts fun x taken => x.depth < taken.length + m)
include hself

theorem Ty.shallow_decodeWith (t : Ty) (ctx : Context) : (t.decodeWith self ctx).Shallow m := by
  induction t generalizing ctx with
  | scalar s => exact .map ((s.accepts_decode ctx).mono fun x taken _ => Nat.zero_le _)
  | option t ih =>
      rw [Ty.decodeWith]
      split
      · refine .after Decode.accepts_readBool fun b => ?_
        split
        · exact .map (ih ctx.present)
        · exact .pure (Nat.zero_le _)
      · exact .map (ih ctx)
  | pointer p t ih => exact .map (ih ctx)
  | sequence k t ih =>
      exact .after (Decode.accepts_readCount ctx) fun len => .map (Decode.shallow_readRun (ih ctx.element) len _)
  | deque t ih =>
      refine .after (Decode.accepts_readCount ctx) fun len => .map ?_
      exact (Decode.shallow_readRun (ih ctx.element) len _).mono fun xs taken hle =>
        Nat.max_le.mpr ⟨hle, Nat.zero_le _⟩
  | array t n ih => exact .map (Decode.shallow_readRun (ih ctx.element) n _)
  | map l k v ihk ihv =>
      exact Decode.Shallower.shallow (.map (Decode.shallower_readMap (ihk ctx.element) (ihv ctx.element) l))
  | set l t ih => exact Decode.Shallower.shallow (.map (Decode.shallower_readItems (ih ctx.element) l))
  | record k fs ih => exact .map (fs.shallow_decodeWith hdefaults k ctx ih)
  | union name cs ih =>
      exact .after (Decode.accepts_readVariant name ctx) fun variant =>
        .map (cs.shallow_decodeWith name variant.payload ctx.bare ih)
  | recursive r => exact .map (hself r ctx)

/-- Before a name is followed bytes are taken that belong to no value inside. -/
theorem Ty.shallower_decodeWith (t : Ty) (ctx : Context) (hguarded : t.guarded ctx.optional ctx.fixedLen = true) :
    (t.decodeWith self ctx).Shallower m := by
  have hshallow (t : Ty) := t.shallow_decodeWith hdefaults hself
  induction t generalizing ctx with
  | scalar s =>
      refine .map ((s.takesBytes_decode hguarded).mono fun x taken hne => ?_)
      have hpos := List.length_pos_of_ne_nil hne
      show max 0 m < taken.length + m
      omega
  | option t ih =>
      rw [Ty.decodeWith]
      split
      · refine .after Decode.takesBytes_readBool fun b => ?_
        split
        · exact .map (hshallow t ctx.present)
        · exact .pure (Nat.zero_le _)
      · next hoptional => exact .map (ih ctx (by simpa [guarded, hoptional] using hguarded))
  | pointer p t ih => exact .map (ih ctx hguarded)
  | sequence k t ih =>
      refine .counted (fun len => .map (Decode.shallow_readRun (hshallow t _) len _)) fun len hfixed => ?_
      simp only [guarded, hfixed, Option.all_some, Bool.and_eq_true, decide_eq_true_eq] at hguarded
      exact .map (Decode.shallower_readRun (ih ctx.element hguarded.2) hguarded.1 ctx.element)
  | deque t ih =>
      have hnil (n : Nat) {xs : Items t n} : (Value.deque xs .nil).depth = xs.depth := Nat.max_zero _
      refine .counted (fun len => .map ?_) fun len hfixed => .map ?_
      · exact (Decode.shallow_readRun (hshallow t _) len _).mono fun xs taken hle => (hnil len).trans_le hle
      · simp only [guarded, hfixed, Option.all_some, Bool.and_eq_true, decide_eq_true_eq] at hguarded
        refine (Decode.shallower_readRun (ih ctx.element hguarded.2) hguarded.1 ctx.element).mono ?_
        exact fun xs taken hlt => (hnil len).symm ▸ hlt
  | array t n ih =>
      simp only [guarded, Bool.and_eq_true, decide_eq_true_eq] at hguarded
      exact .map (Decode.shallower_readRun (ih ctx.element hguarded.2) hguarded.1 ctx.element)
  | map l k v => exact .map (Decode.shallower_readMap (hshallow k _) (hshallow v _) l)
  | set l t => exact .map (Decode.shallower_readItems (hshallow t _) l)
  | record k fs ih =>
      exact .map (fs.shallower_decodeWith hdefaults k ctx (fun t _ => hshallow t) ih hguarded)
  | union name cs =>
      exact .after (Decode.takesBytes_readVariant name ctx) fun variant =>
        .map (cs.shallow_decodeWith name variant.payload ctx.bare fun t _ => hshallow t)
  | recursive r => cases hguarded

end Types

theorem decodeNested_shallow (hdefaults : DefaultsWithin m) : (n : Nat) → (r : Recursive) → (ctx : Context) →
    (decodeNested n r ctx).Accepts fun x taken => x.depth < taken.length + m
  | 0, _, _ => .throw _
  | n + 1, r, ctx =>
      (r.body.shallower_decodeWith hdefaults (decodeNested_shallow hdefaults n) ctx (r.guarded_body _ _)).mono
        fun _ _ hlt => (le_max_left _ _).trans_lt hlt

theorem Ty.shallow_decode (hdefaults : DefaultsWithin m) (t : Ty) (ctx : Context) : (t.decode ctx).Shallow m :=
  accepts_decode_of_nested fun n => t.shallow_decodeWith hdefaults (decodeNested_shallow hdefaults n) ctx

/-- Decoding a type that contains itself ends, with a value or with an error that the input is at fault for. It takes
a byte before it is entered again, so on `n` bytes it is entered at most `n + 1` times one inside the other, and the
value is not nested deeper than the bytes that are taken for it, up to the depth that skipped fields come with. -/
theorem Recursive.decode_ends (r : Recursive) (ctx : Context) (input : Bytes) :
    ((∃ x taken rest, Ty.decode (.recursive r) ctx input = .ok (x, rest) ∧ input = taken ++ rest ∧
        ∀ m, DefaultsWithin m → x.depth ≤ taken.length + m) ∨
      ∃ e, Ty.decode (.recursive r) ctx input = .error e ∧ e.OfReading) ∧
    (Ty.decode (.recursive r) ctx = do
      let x ← decodeBody r ctx
      return .recursive x) ∧
    decodeBody r ctx = r.body.decodeWith decodeBody ctx ∧
    (∀ bottom, decodeAbove bottom (input.length + 1) r ctx input = decodeBody r ctx input) ∧
    (∀ inner, Level.Enters ⟨r, ctx, input⟩ inner → inner.input.length < input.length) ∧
    ∀ levels, List.IsChain Level.Enters (⟨r, ctx, input⟩ :: levels) →
      (⟨r, ctx, input⟩ :: levels : List Level).length ≤ input.length + 1 := by
  refine ⟨?_, Ty.decode_eq _ ctx, r.body.decode_eq ctx,
    fun bottom => (alike_decodeAbove bottom _ r ctx input (Nat.lt_succ_self _)).1,
    fun inner => Level.Enters.length_lt, fun levels h => Nat.succ_le_succ (Level.length_le_of_isChain h)⟩
  cases hrun : Ty.decode (.recursive r) ctx input with
  | error e => exact .inr ⟨e, rfl, Ty.failsIn_decode _ ctx input e hrun⟩
  | ok result =>
      obtain ⟨x, rest⟩ := result
      obtain ⟨taken, hinput, -⟩ := Ty.bounded_decode _ ctx input x rest hrun
      refine .inl ⟨x, taken, rest, rfl, hinput, fun m hdefaults => ?_⟩
      obtain ⟨taken', hinput', hdepth⟩ := Ty.shallow_decode hdefaults _ ctx input x rest hrun
      rwa [List.append_cancel_right (hinput.symm.trans hinput')]

end Values

section Family

/-- No declared type of the catalogue has a default, so skipped fields come with no depth, and nodes, trees and
branches are not nested deeper than the bytes that are taken for them. -/
theorem Catalogue.defaultsWithin : DefaultsWithin 0 := fun _ _ h => nomatch h

def node {n : Nat} (value : BitVec 8) (children : Items (.boxed Catalogue.node) n) : Value Catalogue.node :=
  .recursive (.record (.cons (.scalar (s := .int .u8) value) (.cons (.sequence children) .nil)))

/-- A node with one child. -/
def family : Value Catalogue.node := node 7 (.cons (.pointer (node 8 .nil)) .nil)

def familyBytes : Bytes := [7, 1, 0, 0, 0, 8, 0, 0, 0, 0]

def childBytes : Bytes := [8, 0, 0, 0, 0]

/-- The node is entered with ten bytes left and its child with five. -/
theorem Recursive.decode_ends_family :
    Ty.decode Catalogue.node (.start .empty) familyBytes = .ok (family, []) ∧ family.depth = 2 ∧
      family.depth ≤ familyBytes.length + 0 ∧
      Level.Enters ⟨⟨"Node"⟩, .start .empty, familyBytes⟩ ⟨⟨"Node"⟩, .start .empty, childBytes⟩ ∧
      childBytes.length < familyBytes.length ∧
      [familyBytes, childBytes].length ≤ familyBytes.length + 1 := by
  have hrun : Ty.decode Catalogue.node (.start .empty) familyBytes = .ok (family, []) :=
    (Ty.decode_eq_nested (n := 11) _ _ (by decide)).trans rfl
  have henters : Level.Enters ⟨⟨"Node"⟩, .start .empty, familyBytes⟩ ⟨⟨"Node"⟩, .start .empty, childBytes⟩ :=
    fun _ => rfl
  obtain ⟨hends, -, -, -, hshrinks, hchain⟩ := decode_ends ⟨"Node"⟩ (.start .empty) familyBytes
  have hdepth : family.depth ≤ familyBytes.length + 0 := by
    rcases hends with ⟨x, taken, rest, hx, hinput, hdepth⟩ | ⟨e, he, -⟩
    · cases hrun.symm.trans hx
      rw [hinput, List.append_nil]
      exact hdepth 0 Catalogue.defaultsWithin
    · cases hrun.symm.trans he
  exact ⟨hrun, rfl, hdepth, henters, hshrinks _ henters, hchain [_] (List.isChain_pair.mpr henters)⟩

end Family

end CanonicalWire
