import ValueMachine.Proofs.Bytes.Extension
import ValueMachine.Proofs.Store.Saving

/-! A snapshot ends in one place.

Every record of a snapshot says how long it is, so nothing but the last byte of the last
record can be its end: what is cut off before is refused for want of bytes, and what goes on
behind is refused for the bytes that are left over (`load_ends_once`). -/
namespace ValueMachine

/-- The snapshot ends too early. -/
def SnapshotError.IsShort : SnapshotError → Prop
  | decode e => e.IsShort
  | _ => False

namespace Snapshot

open LengthensTo SnapshotError

variable {α : Type}

theorem lift_lengthens {read : Read α} (h : Lengthens DecodeError.IsShort read) :
    Lengthens IsShort (liftM read : Loading α) := by
  intro r more
  have hread := h r more
  rw [lift_eq]
  cases hr : read r with
  | ok x r' =>
    rw [hr] at hread
    exact lift_eq_ok_iff.mpr hread
  | error e r' =>
    rw [hr] at hread
    apply hread.imp_right
    intro hne x r'' hx
    exact hne x r'' (lift_eq_ok_iff.mp hx)

/-- A check that reads nothing. -/
theorem lengthens_of_check {check : Loading Unit} {P : Prop}
    (h : ∀ {u r r'}, check r = .ok u r' ↔ P ∧ r = r') : Lengthens IsShort check := by
  intro r more
  cases hr : check r with
  | ok u r' => exact h.mpr ⟨(h.mp hr).1, congrArg (·.append more) (h.mp hr).2⟩
  | error e r' =>
    right
    intro u r'' hu
    have hok : check r = .ok u r := h.mpr ⟨(h.mp hu).1, rfl⟩
    rw [hr] at hok
    cases hok

theorem require_lengthens (check : Except StoreError Unit) : Lengthens IsShort (require check) :=
  lengthens_of_check require_eq_ok_iff

theorem checkNames_lengthens (shapes : ShapeTable) (functions : Nat) (a : Addr) (v : Value) :
    Lengthens IsShort (checkNames shapes functions a v) :=
  lengthens_of_check checkNames_eq_ok_iff

theorem loadShapes_lengthens (n : Nat) (shapes : ShapeTable) :
    Lengthens IsShort (loadShapes n shapes) := by
  induction n generalizing shapes with
  | zero => exact .pure shapes
  | succ n ih =>
    apply (lift_lengthens .shape).bind
    intro shape
    split
    · exact .throw _
    · exact (require_lengthens _).bind fun _ => ih _

theorem loadValues_lengthens (shapes : ShapeTable) (functions n : Nat) (values : Interner Value) :
    Lengthens IsShort (loadValues shapes functions n values) := by
  induction n generalizing values with
  | zero => exact .pure values
  | succ n ih =>
    apply (lift_lengthens .value).bind
    intro v
    apply (checkNames_lengthens shapes functions _ v).bind
    intro _
    split
    · split
      · exact .throw _
      · exact ih _
    · exact ih _

theorem loadBodies_lengthens (shapes : ShapeTable) (values n : Nat) (bodies : Array Body) :
    Lengthens IsShort (loadBodies shapes values n bodies) := by
  induction n generalizing bodies with
  | zero => exact .pure bodies
  | succ n ih =>
    apply (lift_lengthens .body).bind
    intro b
    exact (require_lengthens _).bind fun _ => ih _

/-- Behind the last record nothing may follow. -/
theorem atEnd_lengthens (s : Store) : LengthensTo IsShort
    (fun _ r more longer => more ≠ [] → longer = .error (.trailingBytes more.length) (r.append more))
    (do
      let left := (← get).left
      if left ≠ 0 then throw (.trailingBytes left)
      return s : Loading Store) := by
  intro r more
  rw [run_get_bind, run_get_bind]
  have hmore : (r.append more).left = r.left + more.length := rfl
  by_cases hleft : r.left = 0
  · rw [if_neg (not_not_intro hleft)]
    intro hne
    have hlength : (r.append more).left = more.length := by omega
    have hpos : more.length ≠ 0 := fun h => hne (List.length_eq_zero_iff.mp h)
    rw [hlength, if_pos hpos]
    rfl
  · rw [if_pos hleft]
    right
    intro x r'
    rw [if_pos (by omega)]
    exact run_throw_ne_ok

/-- Before more bytes the tables are read as they were, and then there is something left. -/
theorem loadTables_lengthens : LengthensTo IsShort
    (fun _ r more longer => more ≠ [] → longer = .error (.trailingBytes more.length) (r.append more))
    loadTables := by
  apply (lift_lengthens (.take magic.length)).bind
  intro found
  apply otherwise
  apply (lift_lengthens .word).bind
  intro found
  apply otherwise
  apply (lift_lengthens .word).bind
  intro values
  apply (lift_lengthens .word).bind
  intro functions
  apply room (.inr rfl)
  apply (lift_lengthens (.count 1)).bind
  intro count
  apply (loadShapes_lengthens count .empty).bind
  intro shapes
  apply otherwise
  apply (loadValues_lengthens shapes functions.toNat values.toNat .empty).bind
  intro contents
  apply otherwise
  apply (loadBodies_lengthens shapes contents.size functions.toNat #[]).bind
  intro bodies
  exact atEnd_lengthens ⟨contents, shapes, bodies⟩

theorem load_of_loadTables_error {bytes : List UInt8} {e : SnapshotError} {r : Reader}
    (h : loadTables (Reader.ofBytes bytes) = .error e r) : load bytes = .error e := by
  unfold load
  rw [h]

/-- **A snapshot ends in one place.** Of what is loaded every proper prefix is refused
because it ends too early, and whatever goes on behind is refused for the bytes left over. -/
theorem load_ends_once {bytes : List UInt8} {s : Store} (h : load bytes = .ok s) :
    (∀ cut, cut <+: bytes → cut ≠ bytes →
      load cut = .error (.decode .unexpectedEnd) ∨ load cut = .error (.decode .outOfBounds)) ∧
    ∀ more, more ≠ [] → load (bytes ++ more) = .error (.trailingBytes more.length) := by
  obtain ⟨⟨r, hr⟩, -⟩ := load_eq_ok_iff.mp h
  constructor
  · intro cut hprefix hne
    obtain ⟨more, rfl⟩ := hprefix
    have hmore : more ≠ [] := fun he => hne (by rw [he, List.append_nil])
    rw [Reader.ofBytes_append] at hr
    have hends := loadTables_lengthens (Reader.ofBytes cut) more
    rw [hr] at hends
    cases hcut : loadTables (Reader.ofBytes cut) with
    | ok t r' =>
      rw [hcut] at hends
      cases hends hmore
    | error e r' =>
      rw [hcut] at hends
      have hload := load_of_loadTables_error hcut
      rcases hends with hshort | hnever
      · cases e <;> simp_all [SnapshotError.IsShort, DecodeError.IsShort]
      · exact absurd rfl (hnever s r)
  · intro more hmore
    have hends := loadTables_lengthens (Reader.ofBytes bytes) more
    rw [hr, ← Reader.ofBytes_append] at hends
    exact load_of_loadTables_error (hends hmore)

/-- The snapshot of the store with records of many sorts, with its last byte cut off and with
one more byte. -/
theorem load_ends_once_records : (∃ s, load (save .withRecords) = .ok s) ∧
    (load (save .withRecords).dropLast = .error (.decode .unexpectedEnd) ∨
      load (save .withRecords).dropLast = .error (.decode .outOfBounds)) ∧
    load (save .withRecords ++ [0]) = .error (.trailingBytes 1) := by
  obtain ⟨s, hs, -⟩ := load_save_of_wellFormed Reachable.withRecords.wellFormed
    (by decide +kernel) (by decide +kernel)
  obtain ⟨hcut, hmore⟩ := load_ends_once hs
  have hne : (save .withRecords).dropLast ≠ save .withRecords := by decide +kernel
  exact ⟨⟨s, hs⟩, hcut _ (List.dropLast_prefix _) hne, hmore [0] (by simp)⟩

end Snapshot

end ValueMachine
