import RpnCalculator.Disk
import Mathlib.Algebra.Order.BigOperators.Group.List
import Mathlib.Algebra.Order.Group.Nat

/-!
# Writing is all or nothing

`Disk.replaceFile` makes a draft, fills it and moves it, and any of its stages can fail with
the draft on the disk.  This file shows that nobody ever sees that: writing is equal to an
*attempt* (`replaceFile_eq_attempt`), which either puts the bytes in their place and changes
nothing else, or fails on a disk that is the one it was given.

Two things have to be right for that.  The name of the draft must be free, since otherwise
taking the draft away would take away what was there (`ne_draft`); and every stage after the
first must clean up.
-/

namespace RpnCalculator

namespace Disk

/-! ## Putting and taking away -/

@[simp] theorem stage_put (disk : Disk) (place : Location) (e : DiskEntry) (s : WriteStage) :
    (disk.put place e).stage s = disk.stage s := rfl

@[simp] theorem remove_put (disk : Disk) (place : Location) (e : DiskEntry) :
    (disk.put place e).remove place = disk.remove place := by
  simp [put, remove]

@[simp] theorem put_put (disk : Disk) (place : Location) (e e' : DiskEntry) :
    (disk.put place e).put place e' = disk.put place e' := by
  simp [put, remove]

/-- Taking away what is not there changes nothing. -/
theorem remove_eq_self {disk : Disk} {place : Location}
    (h : ∀ e ∈ disk.entries, e.1 ≠ place) : disk.remove place = disk := by
  have hfilter : disk.entries.filter (·.1 ≠ place) = disk.entries := by
    rw [List.filter_eq_self]
    intro e he
    simpa using h e he
  simp only [remove, hfilter]

/-! ## The name of a draft -/

/-- **The name of a draft is free.**  It is longer than every name that is taken. -/
theorem ne_draft (disk : Disk) (folder : Location) :
    ∀ e ∈ disk.entries, e.1 ≠ disk.draftName :: folder := by
  intro e he heq
  have hle : (e.1.headD "").length ≤
      (disk.entries.map fun e => (e.1.headD "").length).foldr (· + ·) 0 :=
    List.single_le_sum (fun _ _ => Nat.zero_le _) _ (List.mem_map_of_mem he)
  rw [heq] at hle
  simp only [draftName, List.headD_cons, String.length_ofList, List.length_replicate] at hle
  omega

/-! ## Writing a file -/

/-- The disk with bytes in the place that a path leads to, once a draft can be made. -/
def finished (path : String) (bytes : List UInt8) (disk : Disk) : Except SystemFault Disk := do
  disk.stage .write
  disk.stage .sync
  disk.stage .rename
  let place ← disk.targetOf path
  .ok (disk.put place (.file bytes))

/-- The disk with bytes in the place that a path leads to, if all goes well. -/
def replaced (path : String) (bytes : List UInt8) (disk : Disk) : Except SystemFault Disk := do
  let _ ← disk.folderOf path
  disk.stage .create
  disk.finished path bytes

theorem finishDraft_apply {disk : Disk} {draft : Location} (hne : draft ≠ [])
    (hfree : disk.remove draft = disk) (path : String) (bytes : List UInt8) :
    finishDraft path bytes draft (disk.put draft (.file [])) =
      match finished path bytes disk with
      | .ok disk => (.ok (), disk)
      | .error f =>
        (.error f, disk.put draft (.file (if disk.stage .write = .ok () then bytes else []))) := by
  have hat : (disk.put draft (.file bytes)).at? draft = some (.file bytes) :=
    at?_put_self disk hne _
  unfold finishDraft finished
  simp only [Effect.look_bind_apply, Effect.change_bind_apply, Effect.change_apply, stage_put,
    put_put, remove_put, hfree]
  cases disk.stage .write with
  | error f => simp [Effect.error_bind]
  | ok u =>
    cases disk.stage .sync with
    | error f => simp [Effect.ok_bind, Effect.error_bind]
    | ok u =>
      cases disk.stage .rename with
      | error f => simp [Effect.ok_bind, Effect.error_bind]
      | ok u =>
        cases disk.targetOf path with
        | error f => simp [Effect.ok_bind, Effect.error_bind]
        | ok place => simp [Effect.ok_bind, move, hat, hfree]

/-- **Writing a file is all or nothing.** -/
theorem replaceFile_eq_attempt (path : String) (bytes : List UInt8) :
    replaceFile path bytes = .attempt (replaced path bytes) := by
  funext disk
  unfold replaceFile createDraft Effect.attempt replaced
  rw [Effect.bind_apply, Effect.look_bind_apply]
  cases disk.folderOf path with
  | error f => rfl
  | ok folder =>
    simp only [Effect.look_bind_apply, Effect.ok_bind]
    cases disk.stage .create with
    | error f => rfl
    | ok u =>
      have hfree := remove_eq_self (ne_draft disk folder)
      simp only [Effect.change_bind_apply, Effect.pure_apply, Effect.cleaning, Effect.ok_bind,
        finishDraft_apply (List.cons_ne_nil _ _) hfree]
      cases finished path bytes disk with
      | error f => simp [hfree]
      | ok disk' => rfl

/-- The disk with a value in the place that a path leads to, if all goes well. -/
def withObject (disk : Disk) (path : String) (v : Value) : Except StorageFault Disk :=
  (disk.replaced path (StoredObject.encode v)).mapError (.cannotWrite path)

/-- **Storing a value is all or nothing.** -/
theorem writeObject_eq_attempt (path : String) (v : Value) :
    writeObject path v = .attempt (withObject · path v) := by
  unfold writeObject
  rw [replaceFile_eq_attempt, Effect.within_attempt _ _ _ _ fun _ => rfl]
  congr 1
  funext disk
  exact congrFun Except.map_id _

end Disk

end RpnCalculator
