import ValueMachine.Proofs.Store.WellFormed
import ValueMachine.Store.Snapshot

/-! What a snapshot must be to be loaded, and that the store that comes of it is
well-formed.

Each reader of a table adds one record after the other. `loadShapes_succ_iff`,
`loadValues_succ_iff` and `loadBodies_succ_iff` say what is asked of one record; by
induction each table is sound when it is finished. What values need of functions is
only seen at the end, when every value is validated. -/
namespace ValueMachine

namespace Snapshot

variable {r r' : Reader}

/-- What a value names is there: children before its place, shapes, and functions. -/
structure NamesKnown (shapes functions place : Nat) (v : Value) : Prop where
  children : ∀ child ∈ v.children, child.index < place
  shapes : ∀ t ∈ v.shapes, t.index < shapes
  function : ∀ f captures, v = .function f captures → f.index < functions

/-! ### One record -/

theorem lift_eq {α : Type} {read : Read α} : (liftM read : Loading α) r = match read r with
    | .ok x r => .ok x r
    | .error e r => .error (.decode e) r := rfl

theorem lift_eq_ok_iff {α : Type} {read : Read α} {x : α} :
    (liftM read : Loading α) r = .ok x r' ↔ read r = .ok x r' := by
  rw [lift_eq]
  cases read r <;> simp

/-- A check that leaves the reader as it is, and what is read behind it. -/
theorem check_bind_eq_ok_iff {α : Type} {check : Loading Unit} {next : Unit → Loading α}
    {p : Prop} {x : α} (hcheck : ∀ {u t}, check r = .ok u t ↔ p ∧ r = t) :
    (check >>= next) r = .ok x r' ↔ p ∧ next () r = .ok x r' := by
  rw [run_bind_eq_ok_iff, exists_unit_iff]
  constructor
  · rintro ⟨t, ht, h⟩
    obtain ⟨hp, rfl⟩ := hcheck.mp ht
    exact ⟨hp, h⟩
  · rintro ⟨hp, h⟩
    exact ⟨r, hcheck.mpr ⟨hp, rfl⟩, h⟩

theorem require_eq_ok_iff {check : Except StoreError Unit} {u : Unit} :
    require check r = .ok u r' ↔ check = .ok () ∧ r = r' := by
  cases check with
  | ok _ => exact run_pure_eq_ok_iff.trans (and_congr_left' (iff_of_true rfl rfl))
  | error e => exact iff_of_false run_throw_ne_ok fun h => by cases h.1

theorem checkNames_eq_ok_iff {shapes : ShapeTable} {functions : Nat} {a : Addr} {v : Value}
    {u : Unit} : checkNames shapes functions a v r = .ok u r' ↔
      NamesKnown shapes.size functions a.index v ∧ r = r' := by
  unfold checkNames
  cases hf : v.children.find? (a.index ≤ ·.index) with
  | some child =>
    have hle : a.index ≤ child.index := by simpa using List.find?_some hf
    refine iff_of_false run_throw_ne_ok fun h => ?_
    exact absurd (h.1.children child (List.mem_of_find?_eq_some hf)) (Nat.not_lt.mpr hle)
  | none =>
    have hchildren : ∀ child ∈ v.children, child.index < a.index := by simpa using hf
    have hlookup (t : ShapeId) : require (discard (shapes.lookup t)) r = .ok u r' ↔
        t.index < shapes.size ∧ r = r' := by
      rw [require_eq_ok_iff, discard_eq_ok_iff]
      refine and_congr_left' (Iff.trans ?_ ShapeTable.lookup_known_iff)
      exact exists_congr fun _ => mapError_eq_ok_iff
    have hshape {t : ShapeId} (hv : v.shapes = [t]) (hf : ∀ f captures, v ≠ .function f captures) :
        NamesKnown shapes.size functions a.index v ∧ r = r' ↔ t.index < shapes.size ∧ r = r' := by
      refine and_congr_left' ⟨fun h => h.shapes t (by simp [hv]), fun h => ⟨hchildren, ?_, ?_⟩⟩
      · rw [hv]
        exact List.forall_mem_singleton.mpr h
      · exact fun f captures he => absurd he (hf f captures)
    have hplain (hv : v.shapes = []) (hf : ∀ f captures, v ≠ .function f captures) :
        NamesKnown shapes.size functions a.index v := by
      refine ⟨hchildren, ?_, fun f captures he => absurd he (hf f captures)⟩
      rw [hv]
      exact fun _ ht => absurd ht List.not_mem_nil
    cases v with
    | function f captures =>
      show (ite _ _ _ : Loading Unit) r = _ ↔ _
      split
      · next hlt =>
        have hn : NamesKnown shapes.size functions a.index (.function f captures) :=
          ⟨hchildren, fun _ ht => absurd ht List.not_mem_nil,
            fun g captures he => by cases he; exact hlt⟩
        exact run_pure_eq_ok_iff.trans (and_congr_left' (iff_of_true rfl hn))
      · next hlt => exact iff_of_false run_throw_ne_ok fun h => hlt (h.1.function f captures rfl)
    | cotuple t tag payload => exact (hlookup t).trans (hshape rfl (by simp)).symm
    | concrete t external => exact (hlookup t).trans (hshape rfl (by simp)).symm
    | nil t => exact (hlookup t).trans (hshape rfl (by simp)).symm
    | cons t head tail => exact (hlookup t).trans (hshape rfl (by simp)).symm
    | universal t predicate => exact (hlookup t).trans (hshape rfl (by simp)).symm
    | existential t predicate => exact (hlookup t).trans (hshape rfl (by simp)).symm
    | _ =>
      exact run_pure_eq_ok_iff.trans (and_congr_left' (iff_of_true rfl (hplain rfl (by simp))))

/-- One more shape is read if it is new and sound. -/
theorem loadShapes_succ_iff {n : Nat} {shapes out : ShapeTable} :
    loadShapes (n + 1) shapes r = .ok out r' ↔ ∃ shape next, Read.shape r = .ok shape next ∧
      Interner.find? shapes shape = none ∧ shape.Sound shapes.size ∧
      loadShapes n (shapes.insert shape) next = .ok out r' := by
  rw [loadShapes]
  rw [run_bind_eq_ok_iff]
  refine exists₂_congr fun shape next => and_congr lift_eq_ok_iff ?_
  have hfind : shapes.find? shape = none ↔ Interner.find? shapes shape = none := by
    simp [ShapeTable.find?]
  rw [← hfind]
  cases hf : shapes.find? shape with
  | some t => exact iff_of_false run_throw_ne_ok fun h => by cases h.1
  | none =>
    rw [and_iff_right rfl]
    have hcheck : (liftM (shapes.check shape) : Except StoreError Unit) = .ok () ↔
        shape.Sound shapes.size := mapError_eq_ok_iff.trans ShapeTable.check_eq_ok_iff
    exact (check_bind_eq_ok_iff require_eq_ok_iff).trans (and_congr_left' hcheck)

theorem addValue_eq_ok_iff {shapes : ShapeTable} {functions n : Nat} {values out : Interner Value}
    {v : Value} :
    (if v.isAbstract = true then
        match values.find? v with
        | some first => throw (.store (.duplicate ⟨Addr.ofIndex first, Addr.ofIndex values.size⟩))
        | none => loadValues shapes functions n (values.insert v)
      else loadValues shapes functions n (values.append v)) r = .ok out r' ↔
      (v.isAbstract = true → values.find? v = none) ∧
      loadValues shapes functions n (values.add Value.isAbstract v) r = .ok out r' := by
  unfold Interner.add
  by_cases ha : v.isAbstract = true
  · rw [if_pos ha, if_pos ha]
    cases values.find? v with
    | some first => exact iff_of_false run_throw_ne_ok fun h => by cases h.1 ha
    | none => exact (and_iff_right fun _ => rfl).symm
  · rw [if_neg ha, if_neg ha]
    exact (and_iff_right fun h => absurd h ha).symm

/-- One more value is read if what it names is there, and if it is new or may be there
twice. -/
theorem loadValues_succ_iff {shapes : ShapeTable} {functions n : Nat} {values out : Interner Value} :
    loadValues shapes functions (n + 1) values r = .ok out r' ↔ ∃ v next,
      Read.value r = .ok v next ∧
      NamesKnown shapes.size functions (Addr.ofIndex values.size).index v ∧
      (v.isAbstract = true → values.find? v = none) ∧
      loadValues shapes functions n (values.add Value.isAbstract v) next = .ok out r' := by
  rw [loadValues]
  rw [run_bind_eq_ok_iff]
  refine exists₂_congr fun v next => and_congr lift_eq_ok_iff ?_
  rw [← addValue_eq_ok_iff]
  exact check_bind_eq_ok_iff checkNames_eq_ok_iff

/-- One more function is read if its body is verified. -/
theorem loadBodies_succ_iff {shapes : ShapeTable} {values n : Nat} {bodies out : Array Body} :
    loadBodies shapes values (n + 1) bodies r = .ok out r' ↔ ∃ b next, Read.body r = .ok b next ∧
      b.Verified shapes values ∧ loadBodies shapes values n (bodies.push b) next = .ok out r' := by
  rw [loadBodies]
  rw [run_bind_eq_ok_iff]
  refine exists₂_congr fun b next => and_congr lift_eq_ok_iff ?_
  exact (check_bind_eq_ok_iff require_eq_ok_iff).trans (and_congr_left' Body.verify_eq_ok_iff)

/-! ### All records -/

theorem count_lt {itemSize n : Nat} (h : Read.count itemSize r = .ok n r') : n < 2 ^ 32 := by
  unfold Read.count at h
  obtain ⟨x, next, -, h⟩ := run_bind_eq_ok_iff.mp h
  obtain ⟨reader, _, -, h⟩ := run_bind_eq_ok_iff.mp h
  split at h
  · obtain ⟨rfl, -⟩ := run_pure_eq_ok_iff.mp h
    exact x.toNat_lt
  · exact absurd h run_throw_ne_ok

theorem loadTables_eq_ok_iff {s : Store} : loadTables r = .ok s r' ↔
    ∃ r1, Read.take magic.length r = .ok magic r1 ∧
    ∃ r2, Read.word r1 = .ok version r2 ∧
    ∃ values r3, Read.word r2 = .ok values r3 ∧
    ∃ functions r4, Read.word r3 = .ok functions r4 ∧
      values.toNat * minValueLength + functions.toNat * minBodyLength ≤ r4.left ∧
    ∃ shapes r5, Read.count 1 r4 = .ok shapes r5 ∧
    ∃ r6, loadShapes shapes .empty r5 = .ok s.shapes r6 ∧ s.shapes.StartsWith Shape.prelude ∧
    ∃ r7, loadValues s.shapes functions.toNat values.toNat .empty r6 = .ok s.values r7 ∧
      s.values.StartsWith Value.prelude ∧
      loadBodies s.shapes s.size functions.toNat #[] r7 = .ok s.functions r' ∧ r'.left = 0 := by
  have hget {r r' x : Reader} : (get : Loading Reader) r = .ok x r' ↔ r = x ∧ r = r' := by
    show EStateM.Result.ok r r = _ ↔ _
    rw [EStateM.Result.ok.injEq]
  simp only [loadTables, run_bind_eq_ok_iff, run_unless_eq_ok_iff, run_pure_eq_ok_iff,
    lift_eq_ok_iff, hget, Interner.startsWith_iff_take, ne_eq, not_not, Nat.not_lt]
  constructor
  · rintro ⟨_, r1, h1, rfl, _, r2, h2, rfl, values, r3, h3, functions, r4, h4, _, _, ⟨rfl, rfl⟩,
      hleft, shapes, r5, h5, table, r6, h6, hshapes, contents, r7, h7, hvalues, bodies, r8, h8,
      _, _, ⟨rfl, rfl⟩, hend, rfl, rfl⟩
    exact ⟨r1, h1, r2, h2, values, r3, h3, functions, r4, h4, hleft, shapes, r5, h5, r6, h6,
      hshapes, r7, h7, hvalues, h8, hend⟩
  · rintro ⟨r1, h1, r2, h2, values, r3, h3, functions, r4, h4, hleft, shapes, r5, h5, r6, h6,
      hshapes, r7, h7, hvalues, h8, hend⟩
    exact ⟨_, r1, h1, rfl, _, r2, h2, rfl, values, r3, h3, functions, r4, h4, _, _, ⟨rfl, rfl⟩,
      hleft, shapes, r5, h5, _, r6, h6, hshapes, _, r7, h7, hvalues, _, r', h8,
      _, _, ⟨rfl, rfl⟩, hend, rfl, rfl⟩

/-! ### The finished tables -/

theorem loadShapes_sound {n : Nat} {shapes out : ShapeTable} (h : loadShapes n shapes r = .ok out r')
    (hi : shapes.Indexed fun _ => true) (hs : ∀ i x, shapes.get? i = some x → x.Sound i) :
    out.size = shapes.size + n ∧ (out.Indexed fun _ => true) ∧
      ∀ i x, out.get? i = some x → x.Sound i := by
  induction n generalizing shapes r with
  | zero =>
    obtain ⟨rfl, -⟩ := run_pure_eq_ok_iff.mp h
    exact ⟨rfl, hi, hs⟩
  | succ n ih =>
    obtain ⟨shape, next, -, hnew, hsound, h⟩ := loadShapes_succ_iff.mp h
    obtain ⟨hsize, hout⟩ := ih h (Interner.indexed_insert hi hnew rfl) (by
      intro i x hx
      rw [Interner.get?_insert] at hx
      split at hx
      · next he =>
        cases hx
        exact he ▸ hsound
      · exact hs i x hx)
    refine ⟨?_, hout⟩
    rw [hsize, Interner.size_insert]
    omega

theorem loadValues_sound {shapes : ShapeTable} {functions n : Nat} {values out : Interner Value}
    (h : loadValues shapes functions n values r = .ok out r') (hlt : values.size + n < 2 ^ 32)
    (hi : values.Indexed Value.isAbstract)
    (hv : ∀ i v, values.get? i = some v → NamesKnown shapes.size functions i v) :
    out.size = values.size + n ∧ out.Indexed Value.isAbstract ∧
      ∀ i v, out.get? i = some v → NamesKnown shapes.size functions i v := by
  induction n generalizing values r with
  | zero =>
    obtain ⟨rfl, -⟩ := run_pure_eq_ok_iff.mp h
    exact ⟨rfl, hi, hv⟩
  | succ n ih =>
    obtain ⟨v, next, -, hn, hnew, h⟩ := loadValues_succ_iff.mp h
    rw [Addr.index_ofIndex (by omega)] at hn
    have hsz : (values.add Value.isAbstract v).size = values.size + 1 := Interner.size_add _ _ _
    obtain ⟨hsize, hout⟩ := ih h (by omega) (Interner.indexed_add hi hnew) (by
      intro i x hx
      rw [Interner.get?_add] at hx
      split at hx
      · next he =>
        cases hx
        exact he ▸ hn
      · exact hv i x hx)
    exact ⟨by omega, hout⟩

theorem loadBodies_sound {shapes : ShapeTable} {values n : Nat} {bodies out : Array Body}
    (h : loadBodies shapes values n bodies r = .ok out r')
    (hb : ∀ (i : Nat) b, bodies[i]? = some b → b.Verified shapes values) :
    out.size = bodies.size + n ∧ ∀ (i : Nat) b, out[i]? = some b → b.Verified shapes values := by
  induction n generalizing bodies r with
  | zero =>
    obtain ⟨rfl, -⟩ := run_pure_eq_ok_iff.mp h
    exact ⟨rfl, hb⟩
  | succ n ih =>
    obtain ⟨b, next, -, hverified, h⟩ := loadBodies_succ_iff.mp h
    obtain ⟨hsize, hout⟩ := ih h (by
      intro i x hx
      rw [Array.getElem?_push] at hx
      split at hx
      · cases hx
        exact hverified
      · exact hb i x hx)
    refine ⟨?_, hout⟩
    rw [hsize, Array.size_push]
    omega

theorem load_eq_ok_iff {bytes : List UInt8} {s : Store} : load bytes = .ok s ↔
    (∃ r, loadTables (Reader.ofBytes bytes) = .ok s r) ∧
      ∀ v ∈ s.values.toList, s.validate v = .ok () := by
  unfold load
  rw [← forM_eq_ok_iff (u := ())]
  cases hr : loadTables (Reader.ofBytes bytes) with
  | error e r => simp
  | ok t r =>
    dsimp only
    constructor
    · intro h
      split at h
      · next hv =>
        cases h
        exact ⟨⟨r, rfl⟩, hv⟩
      · cases h
    · rintro ⟨⟨r', h⟩, hv⟩
      cases h
      rw [hv]

/-- **What is loaded is well-formed**, whatever the bytes. -/
theorem wellFormed_of_load {bytes : List UInt8} {s : Store} (h : load bytes = .ok s) :
    s.WellFormed := by
  obtain ⟨⟨r, hr⟩, hvalid⟩ := load_eq_ok_iff.mp h
  obtain ⟨_, -, _, -, values, _, -, functions, _, -, -, n, _, hn, _, hshapes, hsp, _, hvalues, hvp,
    hbodies, -⟩ := loadTables_eq_ok_iff.mp hr
  have hempty {α : Type} [BEq α] [Hashable α] {p : Nat → α → Prop} (i : Nat) (x : α)
      (hx : (Interner.empty : Interner α).get? i = some x) : p i x := by
    simp [Interner.get?, Interner.empty] at hx
  have hzero {α : Type} [BEq α] [Hashable α] : (Interner.empty : Interner α).size = 0 := rfl
  have hlt : values.toNat < 2 ^ 32 := values.toNat_lt
  obtain ⟨hssize, hsi, hsound⟩ := loadShapes_sound hshapes Interner.indexed_empty hempty
  obtain ⟨hvsize, hvi, hnames⟩ :=
    loadValues_sound hvalues (by rw [hzero]; omega) Interner.indexed_empty hempty
  obtain ⟨-, hverified⟩ := loadBodies_sound hbodies fun i b hb => by simp at hb
  rw [hzero, Nat.zero_add] at hssize hvsize
  refine ⟨?_, ⟨?_, hsp, hsi, hsound⟩, hvp, hvi, ?_, ?_, ?_, fun _ x _ => x.canonical, ?_⟩
  · show s.values.size ≤ 2 ^ 32 - 1
    omega
  · have hcount := count_lt hn
    show s.shapes.size ≤ 2 ^ 32
    omega
  · exact fun a v hv => (hnames a.index v hv).children
  · exact fun a v hv => hvalid v (Interner.mem_toList hv)
  · exact fun a v hv t ht => (hnames a.index v hv).shapes t ht
  · exact fun i b hb => Body.verify_eq_ok_iff.mpr (hverified i b hb)

end Snapshot

end ValueMachine
